import OneUnknown.Equation.FractionClearing
import OneUnknown.Proofs.Division
import OneUnknown.Proofs.ExactQuotient
import OneUnknown.Proofs.TrialDivision
/-!
# Clearing a fraction

One step on the first fraction of an equation either leaves the values of both sides, or multiplies
both by the positive denominator.

* `signedFraction_cases`, `signedFraction_induction`: the fraction before anything is cancelled;
* `reduceFraction_cases`: what cancelling does with a fraction;
* `reduceFraction_spec`: it keeps the value;
* `Sequence.valueAt_scaledSummand`: a summand that is multiplied by a number;
* `FractionSpot.inSummands?_eq_some`: where the fraction was found;
* `FractionSpot.sumAt_exchanged`, `FractionSpot.sumAt_fillScaled`: what stands in its place;
* `Sides.FractionCleared`, `Sides.scaled_withoutFraction`: the step on the equation.
-/

namespace OneUnknown

/-! ## The fraction -/

theorem Sequence.evaluate_constant (value : Rat) :
    Sequence.evaluate [Node.constant value] = .ok value := by
  simp [Node.constant, Group.constant, Group.toNode, WholePower.evaluate]

/-- What a fraction is before anything is cancelled. -/
theorem signedFraction_cases {top bottom signed : List Node} {positive : Rat}
    (h : signedFraction top bottom = .ok (signed, positive)) :
    ∃ numerator denominator, Sequence.hasVariable bottom = false ∧
      (Sequence.hasVariable top = true ∧ numerator = top ∨ Sequence.hasVariable top = false ∧
        ∃ value, Sequence.evaluate top = .ok value ∧ numerator = [Node.constant value]) ∧
      Sequence.evaluate bottom = .ok denominator ∧ denominator ≠ 0 ∧
      signed = (if denominator < 0 then Sequence.negated numerator else numerator) ∧
      positive = |denominator| := by
  rw [signedFraction] at h
  split at h
  · cases h
  · rename_i hbottom
    extract_lets continued at h
    obtain ⟨numerator, hnumerator, h⟩ : ∃ numerator,
        (Sequence.hasVariable top = true ∧ numerator = top ∨ Sequence.hasVariable top = false ∧
          ∃ value, Sequence.evaluate top = .ok value ∧ numerator = [Node.constant value]) ∧
        continued numerator = .ok (signed, positive) := by
      by_cases htop : Sequence.hasVariable top = true
      · rw [if_pos htop] at h
        exact ⟨top, .inl ⟨htop, rfl⟩, h⟩
      · rw [if_neg htop] at h
        obtain ⟨value, hvalue, h⟩ := Except.bind_eq_ok.1 h
        exact ⟨_, .inr ⟨by simpa using htop, value, hvalue, rfl⟩, h⟩
    obtain ⟨denominator, hdenominator, h⟩ := Except.bind_eq_ok.1 h
    split at h
    · cases h
    · rename_i hzero
      refine ⟨numerator, denominator, by simpa using hbottom, hnumerator, hdenominator, hzero, ?_⟩
      split at h
      · rename_i hneg
        obtain ⟨rfl, rfl⟩ := Prod.mk.inj (Except.pure_eq_ok.1 h)
        exact ⟨(if_pos hneg).symm, Rational.magnitude_eq_abs _⟩
      · rename_i hneg
        obtain ⟨rfl, rfl⟩ := Prod.mk.inj (Except.pure_eq_ok.1 h)
        exact ⟨(if_neg hneg).symm, (abs_of_nonneg (not_lt.1 hneg)).symm⟩

/-- What holds of the numerator that is written, of its value and of the other sign of a numerator
holds of the numerator before anything is cancelled. -/
theorem signedFraction_induction {top bottom signed : List Node} {positive : Rat}
    {P : List Node → Prop} (h : signedFraction top bottom = .ok (signed, positive)) (htop : P top)
    (hvalue : ∀ value, Sequence.evaluate top = .ok value → P [Node.constant value])
    (hnegated : ∀ nodes, P nodes → P (Sequence.negated nodes)) : P signed := by
  obtain ⟨numerator, denominator, -, hnumerator, -, -, rfl, -⟩ := signedFraction_cases h
  have hnumerator : P numerator := by
    rcases hnumerator with ⟨-, rfl⟩ | ⟨-, value, hevaluate, rfl⟩
    · exact htop
    · exact hvalue value hevaluate
  split
  · exact hnegated numerator hnumerator
  · exact hnumerator

/-- What cancelling does: numerator and denominator are divided by their greatest common divisor, if
there is one. -/
theorem reduceFraction_cases {limit : Nat} {top bottom : List Node} {reduced : ReducedFraction}
    (h : reduceFraction limit top bottom = .ok reduced) :
    ∃ signed positive, signedFraction top bottom = .ok (signed, positive) ∧
      (reduced = ⟨signed, positive, false⟩ ∨
        ∃ common : Nat, (1 < common ∧ ∃ divisors, Sequence.divisors limit signed = some divisors ∧
            common = (divisors.shared (Rational.divisors positive limit)).greatest) ∧
          reduced = ⟨Sequence.dividedBy (common : Rat) signed, positive / (common : Rat), true⟩) := by
  obtain ⟨⟨signed, positive⟩, hsigned, h⟩ := Except.bind_eq_ok.1 h
  obtain ⟨divisors, hdivisors, h⟩ := Except.bind_eq_ok.1 h
  obtain ⟨others, hothers, h⟩ := Except.bind_eq_ok.1 h
  obtain rfl := Rational.divisors_of_wordDivisors (searched_eq_ok.1 hothers)
  refine ⟨signed, positive, Except.mapError_eq_ok.1 hsigned, ?_⟩
  dsimp only at h
  split at h
  · obtain rfl := Except.pure_eq_ok.1 h
    exact .inl rfl
  · rename_i hcommon
    obtain rfl := Except.pure_eq_ok.1 h
    exact .inr ⟨_, ⟨not_le.1 hcommon, divisors, searched_eq_ok.1 hdivisors, rfl⟩, rfl⟩

section

variable (point : Char → Rat) {x : Char}

/-- With a positive denominator the fraction has the same value. -/
theorem signedFraction_spec {top bottom signed : List Node} {positive : Rat}
    (h : signedFraction top bottom = .ok (signed, positive)) (htop : Sequence.IsPlain x false top) :
    0 < positive ∧ Sequence.IsPlain x false signed ∧
      ∀ point t b, Sequence.valueAt point top = some t → Sequence.valueAt point bottom = some b →
        ∃ n, Sequence.valueAt point signed = some n ∧ n / positive = t / b := by
  refine ⟨?_, signedFraction_induction h htop (fun value _ => Sequence.isPlain_constant x false value)
    fun _ => Sequence.isPlain_negated, fun point t b ht hb => ?_⟩
  · obtain ⟨-, denominator, -, -, -, hzero, -, rfl⟩ := signedFraction_cases h
    exact abs_pos.2 hzero
  · obtain ⟨numerator, denominator, -, hnumerator, hdenominator, -, rfl, rfl⟩ :=
      signedFraction_cases h
    obtain rfl : denominator = b := by
      simpa [hb] using (Sequence.valueAt_of_evaluate point hdenominator).symm
    obtain ⟨hplain, hvalue⟩ : Sequence.IsPlain x false numerator ∧
        Sequence.valueAt point numerator = some t := by
      rcases hnumerator with ⟨-, rfl⟩ | ⟨-, value, hevaluate, rfl⟩
      · exact ⟨htop, ht⟩
      · refine ⟨Sequence.isPlain_constant x false value, ?_⟩
        rw [Sequence.valueAt_singleton, Node.valueAt_constant, ← ht,
          Sequence.valueAt_of_evaluate point hevaluate]
    split
    · rename_i hneg
      refine ⟨-t, Sequence.valueAt_negated point hplain hvalue, ?_⟩
      rw [abs_of_neg hneg, neg_div_neg_eq]
    · rename_i hneg
      exact ⟨t, hvalue, by rw [abs_of_nonneg (not_lt.1 hneg)]⟩

/-- Cancelling gives a positive denominator and keeps the value of the fraction. -/
theorem reduceFraction_spec {limit : Nat} {top bottom : List Node} {reduced : ReducedFraction}
    (h : reduceFraction limit top bottom = .ok reduced) (htop : Sequence.IsPlain x false top) :
    0 < reduced.denominator ∧ Sequence.IsPlain x false reduced.numerator ∧
      ∀ point t b, Sequence.valueAt point top = some t → Sequence.valueAt point bottom = some b →
        ∃ n, Sequence.valueAt point reduced.numerator = some n ∧ n / reduced.denominator = t / b := by
  obtain ⟨signed, positive, hsigned, hreduced⟩ := reduceFraction_cases h
  obtain ⟨hpos, hplain, hvalue⟩ := signedFraction_spec hsigned htop
  rcases hreduced with rfl | ⟨common, ⟨hcommon, -⟩, rfl⟩
  · exact ⟨hpos, hplain, hvalue⟩
  · have hcommonPos : (0 : Rat) < (common : Rat) := by
      exact_mod_cast Nat.lt_trans Nat.one_pos hcommon
    refine ⟨div_pos hpos hcommonPos, Sequence.isPlain_dividedBy hplain, ?_⟩
    intro point t b ht hb
    obtain ⟨n, hn, heq⟩ := hvalue point t b ht hb
    refine ⟨_, Sequence.valueAt_dividedBy point hplain hn, ?_⟩
    rw [← heq, ← div_eq_inv_mul, div_div_div_cancel_right₀ hcommonPos.ne']

/-! ## Summands -/

/-- The first factors of a summand that is multiplied by a number. -/
theorem scaledSummand_cons (factor : Rat) (node : Node) (rest : List Node) :
    (∃ letter n p, node = .group letter n p ∧ (letter.isSome || p.isEmpty) = true ∧
      scaledSummand factor (node :: rest) =
        [.group letter (Number.ofRat (n.value * factor)) p] ++ rest) ∨
    scaledSummand factor (node :: rest) =
      [Node.constant factor, .operator .multiply, node] ++ rest := by
  cases node with
  | group letter n p =>
    rw [scaledSummand]
    split
    · rename_i hcase
      exact .inl ⟨letter, n, p, rfl, hcase, rfl⟩
    · exact .inr rfl
  | _ => exact .inr rfl

theorem Sequence.valueAt_scaledSummand {part : List Node} {value : Rat} (factor : Rat)
    (hplain : Sequence.IsPlain x false part) (hproduct : Sequence.IsProduct part)
    (h : Sequence.valueAt point part = some value) :
    Sequence.valueAt point (scaledSummand factor part) = some (factor * value) := by
  cases part with
  | nil => simp [Sequence.valueAt] at h
  | cons node rest =>
    rcases Sequence.valueAt_of_mem point h (.head _) with ⟨v, hv⟩ | ⟨op, rfl⟩
    · have hterm := Node.isTerm_of_valueAt point hv
      rcases scaledSummand_cons factor node rest with ⟨letter, n, p, rfl, hcase, heq⟩ | heq
      · rw [heq]
        refine Sequence.valueAt_exchange point [] factor hproduct
          (Sequence.isProduct_singleton rfl) (by simp) hv ?_ h
        obtain ⟨⟨-, exponent, hp⟩, -⟩ := hplain
        rw [Sequence.valueAt_singleton]
        cases letter with
        | some name =>
          rw [Node.valueAt_group point hp] at hv ⊢
          obtain rfl : n.value * point name ^ exponent = v := by simpa using hv
          rw [Number.value_ofRat, mul_comm n.value, mul_assoc]
        | none =>
          obtain rfl : p = [] := by simpa using hcase
          obtain rfl : n.value = v := by simpa [Node.valueAt] using hv
          simp [Node.valueAt, mul_comm]
      · rw [heq]
        refine Sequence.valueAt_exchange point [] factor hproduct
          (Sequence.isProduct_pair rfl hterm) (by simp) hv ?_ h
        exact Sequence.valueAt_pair point (Node.valueAt_constant point factor) hv
    · simp [Sequence.valueAt, Node.valueAt] at h

theorem Sequence.isPlain_scaledSummand {part : List Node} (factor : Rat)
    (h : Sequence.IsPlain x false part) : Sequence.IsPlain x false (scaledSummand factor part) := by
  cases part with
  | nil => trivial
  | cons node rest =>
    rcases scaledSummand_cons factor node rest with ⟨letter, n, p, rfl, -, heq⟩ | heq
    · rw [heq]
      exact h
    · rw [heq]
      exact ⟨Node.isPlain_constant _, by simp [Node.IsPlain], h⟩

/-! ## The spot -/

theorem FractionSpot.inSummand?_eq_some {part : List Node} {spot : FractionSpot}
    (h : FractionSpot.inSummand? part = some spot) :
    part = spot.leading ++ .fraction spot.top spot.bottom :: spot.trailing ∧
      spot.before = [] ∧ spot.after = [] := by
  induction part generalizing spot with
  | nil => cases h
  | cons node rest ih =>
    cases node with
    | fraction top bottom =>
      obtain rfl := Option.some.inj h
      exact ⟨rfl, rfl, rfl⟩
    | _ =>
      obtain ⟨inner, hinner, rfl⟩ := Option.map_eq_some_iff.1 h
      obtain ⟨hrest, hbefore, hafter⟩ := ih hinner
      exact ⟨congrArg (_ :: ·) hrest, hbefore, hafter⟩

/-- The summands are those around the fraction with the fraction in its place. -/
theorem FractionSpot.inSummands?_eq_some {parts : List (List Node)} {spot : FractionSpot}
    (h : FractionSpot.inSummands? parts = some spot) :
    parts = spot.fill (.fraction spot.top spot.bottom) := by
  induction parts generalizing spot with
  | nil => cases h
  | cons part rest ih =>
    rw [FractionSpot.inSummands?] at h
    split at h
    · rename_i inner hinner
      obtain rfl := Option.some.inj h
      obtain ⟨hpart, hbefore, -⟩ := FractionSpot.inSummand?_eq_some hinner
      simp [FractionSpot.fill, hbefore, ← hpart]
    · obtain ⟨inner, hinner, rfl⟩ := Option.map_eq_some_iff.1 h
      simpa [FractionSpot.fill] using ih hinner

/-- Summands that have been cut from a plain side. -/
def Sequence.ArePlainProducts (x : Char) (parts : List (List Node)) : Prop :=
  ∀ part ∈ parts, Sequence.IsPlain x false part ∧ Sequence.IsProduct part

theorem Sequence.arePlainProducts_summands {side : List Node}
    (h : Sequence.IsPlain x false side) :
    Sequence.ArePlainProducts x (Sequence.summands side) := fun _ hpart =>
  ⟨Sequence.isPlain_of_mem_summands h hpart, Sequence.isProduct_of_mem_summands h hpart⟩

/-- Filling the spot with another term multiplies its summand. -/
theorem FractionSpot.valueAt_filled {spot : FractionSpot} {old new : Node} {v : Rat}
    (multiple : Rat) (hplain : Sequence.IsPlain x false (spot.leading ++ old :: spot.trailing))
    (hproduct : Sequence.IsProduct (spot.leading ++ old :: spot.trailing))
    (hold : old.valueAt point = some v) (hnew : new.valueAt point = some (multiple * v))
    {value : Rat} (h : Sequence.valueAt point (spot.leading ++ old :: spot.trailing) = some value) :
    Sequence.valueAt point (spot.leading ++ new :: spot.trailing) = some (multiple * value) := by
  have := Sequence.valueAt_exchange point spot.leading multiple hproduct
    (Sequence.isProduct_singleton (Node.isTerm_of_valueAt point hnew))
    (Sequence.divide_not_mem (Sequence.isPlain_append.1 hplain).1) hold (by simpa using hnew) h
  simpa using this

/-- Multiplying all summands multiplies the sum. -/
theorem Sequence.sumAt_scaled {parts : List (List Node)}
    (hparts : Sequence.ArePlainProducts x parts) (factor : Rat) {value : Rat}
    (h : Sequence.sumAt point parts = some value) :
    Sequence.sumAt point (parts.map (scaledSummand factor)) = some (factor * value) :=
  Sequence.sumAt_map point _ factor
    (fun part hpart _ hv =>
      Sequence.valueAt_scaledSummand point factor (hparts part hpart).1 (hparts part hpart).2 hv) h

/-- What one step does with a fraction: a term of the same value takes its place, or both sides are
multiplied by the denominator. -/
theorem FractionSpot.cleared_cases {limit : Nat} {spot : FractionSpot}
    {other : List (List Node)} {side otherSide : List Node}
    (h : spot.cleared limit other = .ok (side, otherSide)) :
    ∃ reduced, reduceFraction limit spot.top spot.bottom = .ok reduced ∧
      ((∃ node, (reduced.denominator = 1 ∧ node = Sequence.asFactor reduced.numerator ∨
            (reduced.cancelled = true ∧
              (Node.fraction? reduced.numerator [Node.constant reduced.denominator]).isSome = true) ∧
              node = .fraction reduced.numerator [Node.constant reduced.denominator]) ∧
          side = Sequence.join (spot.fill node) ∧ otherSide = Sequence.join other) ∨
        (side = Sequence.join
            (spot.fillScaled reduced.denominator (Sequence.asFactor reduced.numerator)) ∧
          otherSide = Sequence.join (other.map (scaledSummand reduced.denominator)))) := by
  obtain ⟨reduced, hreduced, h⟩ := Except.bind_eq_ok.1 h
  refine ⟨reduced, hreduced, ?_⟩
  split at h
  · rename_i hone
    obtain ⟨rfl, rfl⟩ := Prod.mk.inj (Except.pure_eq_ok.1 h)
    exact .inl ⟨_, .inl ⟨hone, rfl⟩, rfl, rfl⟩
  · split at h
    · rename_i hcancelled
      split at h
      · rename_i fraction hsome
        obtain rfl := Node.fraction?_eq_some hsome
        obtain ⟨rfl, rfl⟩ := Prod.mk.inj (Except.pure_eq_ok.1 h)
        exact .inl ⟨_, .inr ⟨⟨hcancelled, by rw [hsome]; rfl⟩, rfl⟩, rfl, rfl⟩
      · cases h
    · obtain ⟨rfl, rfl⟩ := Prod.mk.inj (Except.pure_eq_ok.1 h)
      exact .inr ⟨rfl, rfl⟩

theorem FractionSpot.sumAt_fill {spot : FractionSpot} {node : Node} {value : Rat} :
    Sequence.sumAt point (spot.fill node) = some value ↔
      ∃ b s a, Sequence.sumAt point spot.before = some b ∧
        Sequence.valueAt point (spot.leading ++ node :: spot.trailing) = some s ∧
        Sequence.sumAt point spot.after = some a ∧ b + (s + a) = value := by
  rw [FractionSpot.fill, Sequence.sumAt_append_eq_some]
  constructor
  · rintro ⟨b, rest, hb, hrest, rfl⟩
    obtain ⟨s, a, hs, ha, rfl⟩ := (Sequence.sumAt_cons_eq_some point).1 hrest
    exact ⟨b, s, a, hb, hs, ha, rfl⟩
  · rintro ⟨b, s, a, hb, hs, ha, rfl⟩
    exact ⟨b, s + a, hb, (Sequence.sumAt_cons_eq_some point).2 ⟨s, a, hs, ha, rfl⟩, rfl⟩

/-- The value of the fraction at a spot, from that of its summand. -/
theorem FractionSpot.valueAt_fraction {spot : FractionSpot} {value : Rat}
    (h : Sequence.valueAt point
      (spot.leading ++ .fraction spot.top spot.bottom :: spot.trailing) = some value) :
    ∃ t b, Sequence.valueAt point spot.top = some t ∧ Sequence.valueAt point spot.bottom = some b ∧
      (Node.fraction spot.top spot.bottom).valueAt point = some (t / b) := by
  have hmem : .fraction spot.top spot.bottom ∈
      spot.leading ++ .fraction spot.top spot.bottom :: spot.trailing := by simp
  rcases Sequence.valueAt_of_mem point h hmem with ⟨v, hv⟩ | ⟨op, hop⟩
  · obtain ⟨t, b, ht, hb, -, rfl⟩ := (Node.valueAt_fraction_eq_some point).1 hv
    exact ⟨t, b, ht, hb, hv⟩
  · cases hop

theorem FractionSpot.isPlain_fill {spot : FractionSpot} {node : Node}
    (hparts : Sequence.ArePlainProducts x (spot.fill (.fraction spot.top spot.bottom)))
    (hnode : node.IsPlain x false) : ∀ part ∈ spot.fill node, Sequence.IsPlain x false part := by
  intro part hpart
  rcases List.mem_append.1 hpart with hpart | hpart
  · exact (hparts part (List.mem_append_left _ hpart)).1
  · rcases List.mem_cons.1 hpart with rfl | hpart
    · have := (hparts _ (List.mem_append_right _ (.head _))).1
      obtain ⟨hleading, -, htrailing⟩ := Sequence.isPlain_append.1 this
      exact Sequence.isPlain_append.2 ⟨hleading, hnode, htrailing⟩
    · exact (hparts part (List.mem_append_right _ (.tail _ hpart))).1

theorem FractionSpot.isPlain_fillScaled {spot : FractionSpot} {node : Node} (factor : Rat)
    (hparts : Sequence.ArePlainProducts x (spot.fill (.fraction spot.top spot.bottom)))
    (hnode : node.IsPlain x false) :
    ∀ part ∈ spot.fillScaled factor node, Sequence.IsPlain x false part := by
  have hfill := FractionSpot.isPlain_fill hparts hnode
  intro part hpart
  rcases List.mem_append.1 hpart with hpart | hpart
  · obtain ⟨old, hold, rfl⟩ := List.mem_map.1 hpart
    exact Sequence.isPlain_scaledSummand factor (hfill old (List.mem_append_left _ hold))
  · rcases List.mem_cons.1 hpart with rfl | hpart
    · exact hfill _ (List.mem_append_right _ (.head _))
    · obtain ⟨old, hold, rfl⟩ := List.mem_map.1 hpart
      exact Sequence.isPlain_scaledSummand factor
        (hfill old (List.mem_append_right _ (.tail _ hold)))

/-- A node of the same value in the place of the fraction keeps the sum. -/
theorem FractionSpot.sumAt_exchanged {spot : FractionSpot} {node : Node} {value : Rat}
    (hparts : Sequence.ArePlainProducts x (spot.fill (.fraction spot.top spot.bottom)))
    (hnode : ∀ t b, Sequence.valueAt point spot.top = some t →
      Sequence.valueAt point spot.bottom = some b → node.valueAt point = some (t / b))
    (hvalue : Sequence.sumAt point (spot.fill (.fraction spot.top spot.bottom)) = some value) :
    Sequence.sumAt point (spot.fill node) = some value := by
  obtain ⟨hplain, hproduct⟩ := hparts _ (List.mem_append_right _ (.head _))
  obtain ⟨b, s, a, hb, hs, ha, rfl⟩ := (FractionSpot.sumAt_fill point).1 hvalue
  obtain ⟨t, d, ht, hd, hfraction⟩ := FractionSpot.valueAt_fraction point hs
  have hnew := FractionSpot.valueAt_filled point 1 hplain hproduct hfraction
    ((one_mul (t / d)).symm ▸ hnode t d ht hd) hs
  rw [one_mul] at hnew
  exact (FractionSpot.sumAt_fill point).2 ⟨b, s, a, hb, hnew, ha, rfl⟩

/-- A node of `factor` times the value in the place of the fraction, and all other summands scaled,
multiply the sum. -/
theorem FractionSpot.sumAt_fillScaled {spot : FractionSpot} {node : Node} {value factor : Rat}
    (hparts : Sequence.ArePlainProducts x (spot.fill (.fraction spot.top spot.bottom)))
    (hnode : ∀ t b, Sequence.valueAt point spot.top = some t →
      Sequence.valueAt point spot.bottom = some b → node.valueAt point = some (factor * (t / b)))
    (hvalue : Sequence.sumAt point (spot.fill (.fraction spot.top spot.bottom)) = some value) :
    Sequence.sumAt point (spot.fillScaled factor node) = some (factor * value) := by
  obtain ⟨hplain, hproduct⟩ := hparts _ (List.mem_append_right _ (.head _))
  obtain ⟨b, s, a, hb, hs, ha, rfl⟩ := (FractionSpot.sumAt_fill point).1 hvalue
  obtain ⟨t, d, ht, hd, hfraction⟩ := FractionSpot.valueAt_fraction point hs
  have hbefore := Sequence.sumAt_scaled point
    (fun part hpart => hparts part (List.mem_append_left _ hpart)) factor hb
  have hnew := FractionSpot.valueAt_filled point factor hplain hproduct hfraction
    (hnode t d ht hd) hs
  have hafter := Sequence.sumAt_scaled point
    (fun part hpart => hparts part (List.mem_append_right _ (.tail _ hpart))) factor ha
  rw [mul_add, mul_add]
  exact (Sequence.sumAt_append_eq_some point).2 ⟨_, _, hbefore,
    (Sequence.sumAt_cons_eq_some point).2 ⟨_, _, hnew, hafter, rfl⟩, rfl⟩

/-- The step on a fraction multiplies both sides by the same positive number. -/
theorem FractionSpot.cleared_spec {limit : Nat} {spot : FractionSpot}
    {other : List (List Node)} {side otherSide : List Node}
    (h : spot.cleared limit other = .ok (side, otherSide))
    (hparts : Sequence.ArePlainProducts x (spot.fill (.fraction spot.top spot.bottom)))
    (hother : Sequence.ArePlainProducts x other) :
    ∃ scale : Rat, 0 < scale ∧ Sequence.IsPlain x false side ∧
      Sequence.IsPlain x false otherSide ∧ ∀ point value otherValue,
        Sequence.sumAt point (spot.fill (.fraction spot.top spot.bottom)) = some value →
        Sequence.sumAt point other = some otherValue →
          Sequence.valueAt point side = some (scale * value) ∧
            Sequence.valueAt point otherSide = some (scale * otherValue) := by
  obtain ⟨hplain, -⟩ := hparts _ (List.mem_append_right _ (.head _))
  obtain ⟨-, hfraction, -⟩ := Sequence.isPlain_append.1 hplain
  obtain ⟨reduced, hreduced, hcases⟩ := FractionSpot.cleared_cases h
  obtain ⟨hden, hnumerator, hvalue⟩ := reduceFraction_spec hreduced hfraction.1
  rcases hcases with ⟨node, hnode, rfl, rfl⟩ | ⟨rfl, rfl⟩
  · -- The fraction itself is simpler now, and the other side stays.
    have hnodePlain : node.IsPlain x false := by
      rcases hnode with ⟨-, rfl⟩ | ⟨-, rfl⟩
      · exact Sequence.isPlain_asFactor hnumerator
      · exact ⟨hnumerator, Sequence.isPlain_constant x false _⟩
    have hnodeValue (point : Char → Rat) (t b : Rat)
        (ht : Sequence.valueAt point spot.top = some t)
        (hb : Sequence.valueAt point spot.bottom = some b) :
        node.valueAt point = some (t / b) := by
      obtain ⟨n, hn, heq⟩ := hvalue point t b ht hb
      rw [← heq]
      rcases hnode with ⟨hone, rfl⟩ | ⟨-, rfl⟩
      · rw [hone, div_one]
        exact Sequence.valueAt_asFactor point hn
      · exact (Node.valueAt_fraction_eq_some point).2
          ⟨n, reduced.denominator, hn, by simp, hden.ne', rfl⟩
    refine ⟨1, one_pos, Sequence.isPlain_join (FractionSpot.isPlain_fill hparts hnodePlain),
      Sequence.isPlain_join fun part hpart => (hother part hpart).1,
      fun point value otherValue hv hov => ?_⟩
    rw [one_mul, one_mul]
    exact ⟨Sequence.valueAt_join point
      (FractionSpot.sumAt_exchanged point hparts (hnodeValue point) hv),
      Sequence.valueAt_join point hov⟩
  · -- Both sides are multiplied by the denominator that is left.
    have hnodeValue (point : Char → Rat) (t b : Rat)
        (ht : Sequence.valueAt point spot.top = some t)
        (hb : Sequence.valueAt point spot.bottom = some b) :
        (Sequence.asFactor reduced.numerator).valueAt point =
          some (reduced.denominator * (t / b)) := by
      obtain ⟨n, hn, heq⟩ := hvalue point t b ht hb
      rw [← heq, mul_div_cancel₀ n hden.ne']
      exact Sequence.valueAt_asFactor point hn
    refine ⟨reduced.denominator, hden,
      Sequence.isPlain_join (FractionSpot.isPlain_fillScaled _ hparts
        (Sequence.isPlain_asFactor hnumerator)), Sequence.isPlain_join fun part hpart => ?_,
      fun point value otherValue hv hov => ⟨Sequence.valueAt_join point
        (FractionSpot.sumAt_fillScaled point hparts (hnodeValue point) hv),
        Sequence.valueAt_join point (Sequence.sumAt_scaled point hother _ hov)⟩⟩
    obtain ⟨old, hold, rfl⟩ := List.mem_map.1 hpart
    exact Sequence.isPlain_scaledSummand _ (hother old hold).1

end

/-- What one step does with an equation: it deals with the first fraction of the left side, or else of
the right side, or there is none. -/
inductive Sides.FractionCleared (limit : Nat) (s : Sides) : Sides → Prop where
  | left {spot : FractionSpot} {left right : List Node}
      (hspot : FractionSpot.inSummands? (Sequence.summands s.left) = some spot)
      (hcleared : spot.cleared limit (Sequence.summands s.right) = .ok (left, right)) :
      FractionCleared limit s ⟨left, s.relation, right⟩
  | right {spot : FractionSpot} {left right : List Node}
      (hleft : FractionSpot.inSummands? (Sequence.summands s.left) = none)
      (hspot : FractionSpot.inSummands? (Sequence.summands s.right) = some spot)
      (hcleared : spot.cleared limit (Sequence.summands s.left) = .ok (right, left)) :
      FractionCleared limit s ⟨left, s.relation, right⟩
  | none (hleft : FractionSpot.inSummands? (Sequence.summands s.left) = none)
      (hright : FractionSpot.inSummands? (Sequence.summands s.right) = none) :
      FractionCleared limit s s

theorem Sides.FractionCleared.of_withoutFraction {limit : Nat} {s t : Sides}
    (h : s.withoutFraction limit = .ok t) : s.FractionCleared limit t := by
  unfold withoutFraction at h
  dsimp only at h
  split at h
  · rename_i spot hspot
    obtain ⟨⟨left, right⟩, hcleared, h⟩ := Except.bind_eq_ok.1 h
    exact Except.pure_eq_ok.1 h ▸ .left hspot hcleared
  · rename_i hleft
    split at h
    · rename_i spot hspot
      obtain ⟨⟨right, left⟩, hcleared, h⟩ := Except.bind_eq_ok.1 h
      exact Except.pure_eq_ok.1 h ▸ .right hleft hspot hcleared
    · rename_i hright
      exact Except.ok.inj h ▸ .none hleft hright

/-- Dealing with a fraction leaves an equation that says the same. -/
theorem Sides.scaled_withoutFraction {limit : Nat} {x : Char} {s t : Sides}
    (h : s.withoutFraction limit = .ok t) (hs : s.IsPlain x false) :
    t.IsPlain x false ∧ ∃ scale, Sides.Scaled scale s t := by
  have hleft := Sequence.arePlainProducts_summands hs.1
  have hright := Sequence.arePlainProducts_summands hs.2
  cases Sides.FractionCleared.of_withoutFraction h with
  | left hspot hcleared =>
    have hparts := FractionSpot.inSummands?_eq_some hspot
    obtain ⟨scale, hpos, hplain, hplain', hvalues⟩ :=
      FractionSpot.cleared_spec hcleared (hparts ▸ hleft) hright
    refine ⟨⟨hplain, hplain'⟩, scale, hpos, rfl, fun point l r hl hr => ?_⟩
    obtain ⟨hl', hr'⟩ := hvalues point l r (hparts ▸ Sequence.sumAt_summands point hl)
      (Sequence.sumAt_summands point hr)
    exact ⟨_, _, hl', hr', (mul_sub scale l r).symm⟩
  | right _ hspot hcleared =>
    have hparts := FractionSpot.inSummands?_eq_some hspot
    obtain ⟨scale, hpos, hplain, hplain', hvalues⟩ :=
      FractionSpot.cleared_spec hcleared (hparts ▸ hright) hleft
    refine ⟨⟨hplain', hplain⟩, scale, hpos, rfl, fun point l r hl hr => ?_⟩
    obtain ⟨hr', hl'⟩ := hvalues point r l (hparts ▸ Sequence.sumAt_summands point hr)
      (Sequence.sumAt_summands point hl)
    exact ⟨_, _, hl', hr', (mul_sub scale l r).symm⟩
  | none => exact ⟨hs, 1, .refl s⟩

end OneUnknown
