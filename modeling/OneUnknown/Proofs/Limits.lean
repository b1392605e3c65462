import OneUnknown.Proofs.Defects
import OneUnknown.Proofs.Solver
/-!
# Solving one problem with different limits

The limits decide which common factors are cancelled, and so which equations a run goes through.
Two runs that solve the same equation end with equations that amount to the same, up to a scale.
What is recorded does not depend on that scale, but for one thing: whether a quotient is kept as a
fraction or rounded.

* `Sides.AmountsTo.unique`: an equation amounts to one thing only, up to a scale;
* `isolate_scaled`: what a scale changes when the unknown is isolated;
* `KeepsProducts`: a run on which no product is taken apart;
* `Sides.Run.isolatedAs`: such a run isolates the unknown at its end;
* `Solution.IsWithin`: the rational values of one solution are values of another one;
* `solveNodes_eq_of_hasVariable`: problems without variables;
* `solveNodes_limits`: what is recorded with different limits.
-/

namespace OneUnknown

section

variable {x : Char} {s t : Sides} {solution solution' : Solution}
  {coefficient coefficient' constant constant' scale : Rat} {exponent exponent' : Nat}
  {relation relation' : Relation} {values values' : List Value}

/-! ## What an equation amounts to -/

/-- An equation amounts to one thing only, up to a scale. -/
theorem Sides.AmountsTo.unique (h : s.AmountsTo coefficient exponent relation constant)
    (h' : s.AmountsTo coefficient' exponent' relation' constant') :
    ∃ scale : Rat, scale ≠ 0 ∧ coefficient' = scale * coefficient ∧ constant' = scale * constant ∧
      relation' = relation.oriented scale ∧ (coefficient ≠ 0 → exponent' = exponent) := by
  obtain ⟨first, hfirst, rfl, hvalues⟩ := h.scaled
  obtain ⟨second, hsecond, rfl, hvalues'⟩ := h'.scaled
  have hsame (r : Rat) : coefficient' * r ^ exponent' - constant' =
      second / first * (coefficient * r ^ exponent - constant) := by
    obtain ⟨left, right, hleft, hright, heq⟩ := hvalues r
    obtain ⟨left', right', hleft', hright', heq'⟩ := hvalues' r
    obtain rfl := Option.some.inj (hleft.symm.trans hleft')
    obtain rfl := Option.some.inj (hright.symm.trans hright')
    rw [heq, heq']
    field_simp
  have hconstant : constant' = second / first * constant := by
    have hzero := hsame 0
    rw [zero_pow h.pos.ne', zero_pow h'.pos.ne'] at hzero
    linear_combination -hzero
  have hcoefficient : coefficient' = second / first * coefficient := by
    have hone := hsame 1
    rw [one_pow, one_pow] at hone
    linear_combination hone + hconstant
  refine ⟨second / first, div_ne_zero hsecond hfirst, hcoefficient, hconstant, ?_, fun hne => ?_⟩
  · rw [Relation.oriented_oriented _ hfirst (div_ne_zero hsecond hfirst), div_mul_cancel₀ _ hfirst]
  · have hne' : coefficient' ≠ 0 := by
      rw [hcoefficient]
      exact mul_ne_zero (div_ne_zero hsecond hfirst) hne
    have htwo : (2 : Rat) ^ exponent' = 2 ^ exponent := by
      refine mul_left_cancel₀ hne' ?_
      have htwo := hsame 2
      linear_combination htwo + hconstant - 2 ^ exponent * hcoefficient
    exact Nat.pow_right_injective le_rfl (by exact_mod_cast htwo)

theorem Sides.IsolatedAs.of_becomes (hst : s.Becomes x t) (hdefined : ∀ r, s.DefinedAt (everywhere r))
    (h : t.IsolatedAs x solution) : s.IsolatedAs x solution := by
  obtain ⟨coefficient, exponent, relation, constant, values, ht, hvalues, rfl⟩ := h
  refine ⟨coefficient, exponent, relation, constant, values, ⟨ht.pos, ?_⟩, hvalues, rfl⟩
  obtain ⟨factor, hfactor⟩ := hst.scaled
  obtain ⟨scale, hscale, rfl, hsides⟩ := ht.scaled
  refine ⟨scale * factor, mul_ne_zero hscale hfactor.pos.ne', ?_, fun r => ?_⟩
  · rw [hfactor.relation, ← Relation.oriented_oriented _ hfactor.pos.ne' hscale]
    simp [Relation.oriented, hfactor.pos.not_gt]
  · obtain ⟨left, right, hleft, hright⟩ := hdefined r
    obtain ⟨left', right', hleft', hright', heq⟩ := hfactor.values _ left right hleft hright
    obtain ⟨left'', right'', hleft'', hright'', heq'⟩ := hsides r
    obtain rfl := Option.some.inj (hleft'.symm.trans hleft'')
    obtain rfl := Option.some.inj (hright'.symm.trans hright'')
    exact ⟨left, right, hleft, hright, by rw [heq', heq, mul_assoc]⟩

/-! ## Isolating the unknown at another scale -/

/-- One solution has a number that is no integer as a fraction, and the other one has it rounded. -/
def Solution.IsRoundingOf (x : Char) (rounded exact : Solution) : Prop :=
  ∃ q : Rat, q.den ≠ 1 ∧ rounded = Solution.only x (Value.ofRat q) ∧
    exact = Solution.only x (Value.fractionOf q)

/-- At another scale a quotient is the same, or it is a fraction at one of them and rounded at the
other. -/
theorem exactQuotient_scaled {value value' : Value} (hscale : scale ≠ 0)
    (h : exactQuotient coefficient constant = .ok value)
    (h' : exactQuotient (scale * coefficient) (scale * constant) = .ok value') :
    value = value' ∨ ∃ q : Rat, q.den ≠ 1 ∧
      (value = Value.ofRat q ∧ value' = Value.fractionOf q ∨
        value = Value.fractionOf q ∧ value' = Value.ofRat q) := by
  have hspec' := exactQuotient_spec h'
  rw [mul_div_mul_left _ _ hscale] at hspec'
  obtain rfl | ⟨hden, rfl⟩ := exactQuotient_spec h
  · obtain rfl | ⟨hden, rfl⟩ := hspec'
    · exact .inl rfl
    · exact .inr ⟨_, hden, .inl ⟨rfl, rfl⟩⟩
  · obtain rfl | ⟨-, rfl⟩ := hspec'
    · exact .inr ⟨_, hden, .inr ⟨rfl, rfl⟩⟩
    · exact .inl rfl

/-- What a scale changes when the unknown is isolated: whether a quotient is rounded, and nothing
else. -/
theorem isolate_scaled (hscale : scale ≠ 0) (hexponent : coefficient ≠ 0 → exponent' = exponent)
    (h : isolate coefficient exponent relation constant x = .ok values)
    (h' : isolate (scale * coefficient) exponent' (relation.oriented scale) (scale * constant) x =
      .ok values') :
    Solution.ofValues x values = Solution.ofValues x values' ∨ relation = .equal ∧
      ((Solution.ofValues x values).IsRoundingOf x (Solution.ofValues x values') ∨
        (Solution.ofValues x values').IsRoundingOf x (Solution.ofValues x values)) := by
  obtain ⟨rfl, rfl⟩ | ⟨hne, hcases⟩ := isolate_cases h
  · obtain ⟨-, rfl⟩ | ⟨hne, -⟩ := isolate_cases h'
    · rw [relation.holds_oriented hscale (by ring : 0 - scale * constant = scale * (0 - constant))]
      exact .inl rfl
    · exact absurd (mul_zero scale) hne
  · obtain rfl := hexponent hne
    obtain ⟨hzero, -⟩ | ⟨-, hcases'⟩ := isolate_cases h'
    · exact absurd hzero (mul_ne_zero hscale hne)
    rw [mul_div_mul_left _ _ hscale] at hcases'
    have horiented : (relation.oriented scale).oriented (scale * coefficient) =
        relation.oriented coefficient := by
      rw [mul_comm, ← Relation.oriented_oriented _ hscale hne,
        Relation.oriented_oriented _ hscale hscale]
      simp [Relation.oriented, (mul_self_pos.2 hscale).not_gt]
    rw [horiented, Relation.oriented_eq_equal] at hcases'
    have hnoRange {range : Range} (hequal : relation = .equal)
        (hrange : Range.ofRelation? (relation.oriented coefficient) (constant / coefficient) =
          some range) : False := by
      simp [hequal, Range.ofRelation?] at hrange
    obtain ⟨-, range, rfl, hrange⟩ | ⟨hone, hequal, value, hvalue, rfl⟩ | ⟨hone, hequal, rfl⟩ :=
      hcases
    · obtain ⟨-, range', rfl, hrange'⟩ | ⟨-, hequal, -⟩ | ⟨-, hequal, -⟩ := hcases'
      · rw [hrange] at hrange'
        rw [Option.some.inj hrange']
        exact .inl rfl
      · exact (hnoRange hequal hrange).elim
      · exact (hnoRange hequal hrange).elim
    · obtain ⟨-, _, -, hrange⟩ | ⟨-, -, value', hvalue', rfl⟩ | ⟨hne, -⟩ := hcases'
      · exact (hnoRange hequal hrange).elim
      · obtain rfl | ⟨q, hden, ⟨rfl, rfl⟩ | ⟨rfl, rfl⟩⟩ := exactQuotient_scaled hscale hvalue hvalue'
        · exact .inl rfl
        · exact .inr ⟨hequal, .inl ⟨q, hden, rfl, rfl⟩⟩
        · exact .inr ⟨hequal, .inr ⟨q, hden, rfl, rfl⟩⟩
      · exact absurd hone hne
    · obtain ⟨-, _, -, hrange⟩ | ⟨hone', -⟩ | ⟨-, -, rfl⟩ := hcases'
      · exact (hnoRange hequal hrange).elim
      · exact absurd hone' hone
      · exact .inl rfl

/-- Two solutions for which the unknown was isolated differ in a rounded quotient at most. -/
theorem Sides.IsolatedAs.eq_or_isRoundingOf (h : s.IsolatedAs x solution)
    (h' : s.IsolatedAs x solution') :
    solution = solution' ∨ s.relation = .equal ∧
      (solution.IsRoundingOf x solution' ∨ solution'.IsRoundingOf x solution) := by
  obtain ⟨coefficient, exponent, relation, constant, values, hs, hvalues, rfl⟩ := h
  obtain ⟨coefficient', exponent', relation', constant', values', hs', hvalues', rfl⟩ := h'
  obtain ⟨scale, hscale, rfl, rfl, rfl, hexponent⟩ := hs.unique hs'
  refine (isolate_scaled hscale hexponent hvalues hvalues').imp_right
    fun ⟨hequal, hrounding⟩ => ⟨?_, hrounding⟩
  obtain ⟨factor, -, rfl, -⟩ := hs.scaled
  exact Relation.oriented_eq_equal.1 hequal

/-! ## Runs that take no product apart -/

/-- Whether a sequence is the equation of a product that can be taken apart. -/
def Sequence.isTakenApart (nodes : List Node) : Bool :=
  match Sequence.withFractions nodes >>= Sides.ofNodes with
  | .ok s =>
    match s.zeroProduct? with
    | .ok (some product) => isFactorable product
    | _ => false
  | .error _ => false

/-- No stage is the equation of a product that can be taken apart. -/
def KeepsProducts (stages : List Stage) : Prop :=
  ∀ stage ∈ stages, Sequence.isTakenApart stage.nodes = false

instance (stages : List Stage) : Decidable (KeepsProducts stages) :=
  inferInstanceAs (Decidable (∀ stage ∈ stages, Sequence.isTakenApart stage.nodes = false))

theorem Sequence.isTakenApart_of_zeroProduct? {nodes product : List Node} (ht : t.IsPlain x false)
    (hwritten : Sequence.withFractions nodes = .ok t.toNodes)
    (hproduct : t.zeroProduct? = .ok (some product)) (hfactorable : isFactorable product = true) :
    Sequence.isTakenApart nodes = true := by
  have hsides : Sequence.withFractions nodes >>= Sides.ofNodes = .ok t := by
    rw [hwritten]
    exact Sides.ofNodes_of_isPlain ht
  simp [Sequence.isTakenApart, hsides, hproduct, hfactorable]

/-- A run on which no product is taken apart isolates the unknown at its end.  `stage` is the stage
of the first equation. -/
theorem Sides.Run.isolatedAs {solve : List Node → Traced Solution} {stages : List Stage}
    (h : s.Run solve x stages solution) (stage : Stage)
    (hdefined : ∀ r, s.DefinedAt (everywhere r)) (hstage : stage.nodes = s.toNodes)
    (hkeeps : s.relation = .equal → KeepsProducts (stage :: stages)) :
    s.IsolatedAs x solution := by
  induction h generalizing stage with
  | closed ht hclosed =>
    exact (Sides.isolatedAs_closedForm ht.isPlain hclosed).of_becomes ht hdefined
  | product hwritten ht hproduct hfactorable _ =>
    have hequal := ht.relation.symm.trans (Sides.zeroProduct?_eq_some hproduct).1
    have htaken := hkeeps hequal stage (.head _)
    rw [hstage, Sequence.isTakenApart_of_zeroProduct? ht.isPlain hwritten hproduct hfactorable]
      at htaken
    cases htaken
  | settled _ ht hsettled =>
    exact (Sides.isolatedAs_settled hsettled fun r => ht.definedAt (hdefined r)).of_becomes ht
      hdefined
  | rewritten _ ht hlast hnodes _ ih =>
    refine (ih _ (fun r => ht.definedAt (hdefined r)) hnodes fun hequal => ?_).of_becomes ht hdefined
    have hstages := hkeeps (ht.relation.symm.trans hequal)
    refine List.forall_mem_cons.2 ⟨hstages _ ?_, fun other hother => hstages other ?_⟩
    · exact .tail _ (List.mem_append_left _ hlast)
    · exact .tail _ (List.mem_append_right _ hother)

theorem Sides.isolatedAs_solveNodes {options : Options} {nodes : List Node}
    (hcleaned : Sequence.cleaned nodes = .ok s.toNodes) (hs : s.IsPlain x true)
    (hdefined : ∀ r, s.DefinedAt (everywhere r)) (hvariable : s.hasVariable = true)
    (hkeeps : s.relation = .equal → KeepsProducts (solveTraced options nodes).1)
    (hsolve : solveNodes options nodes = .ok solution) : s.IsolatedAs x solution := by
  obtain ⟨levels, hrun, hstages⟩ := solveNodes_cases hcleaned hsolve
  exact (Sides.Run.of_rewriteUntilSolved hs hdefined hvariable hrun).isolatedAs
    ⟨.cleaning, s.toNodes⟩ hdefined rfl (hstages ▸ hkeeps)

/-! ## Rational values -/

/-- Whether a value is a rational number, exact or rounded. -/
def Value.isRational : Value → Bool
  | .number _ | .fraction .. => true
  | .root _ | .quotient .. | .trueForAll _ | .noSolution | .range _ => false

/-- Every rational number in one solution solves the problem and has a value in another one, and
where it is recorded in the first that everything solves the problem, it is in the other. -/
structure Solution.IsWithin (x : Char) (holds : Rat → Prop) (solution solution' : Solution) : Prop
    where
  rational : ∀ value, (x, value) ∈ solution.entries → value.isRational = true →
    ∃ r, holds r ∧ value.Admits holds r ∧ solution'.Admits x holds r
  everything : solution.isTrueForAll = true → solution'.isTrueForAll = true

/-- Two solutions of an equation, of which the second one has nothing missing. -/
theorem Sides.SolvedBy.isWithin {stages stages' : List Stage} (h : s.SolvedBy x stages solution)
    (h' : s.SolvedBy x stages' solution') (hequal : s.relation = .equal)
    (hnever : NeverDrops stages') :
    solution.IsWithin x (fun r => s.HoldsAt (everywhere r)) solution' where
  rational := by
    intro value hvalue hrational
    have hsound := h.sound x value hvalue
    have hadmits (r : Rat) (hr : s.HoldsAt (everywhere r)) :=
      (h'.complete hnever).admits r hr
    cases value with
    | number n =>
      obtain ⟨r, hr, heq⟩ := hsound
      exact ⟨r, hr, heq, hadmits r hr⟩
    | fraction top bottom =>
      obtain ⟨r, hr, heq⟩ := hsound
      exact ⟨r, hr, heq, hadmits r hr⟩
    | _ => cases hrational
  everything := by
    intro htrue
    obtain ⟨name, other, hmem⟩ := Solution.isTrueForAll_iff.1 htrue
    obtain ⟨found, hfound⟩ := exists_trueForAll_of_isComplete (h'.complete hnever)
      (h.sound name _ hmem) (h'.noRange hequal)
    exact Solution.isTrueForAll_iff.2 ⟨x, found, hfound⟩

/-! ## Two runs -/

/-- Without variables nothing is rewritten. -/
theorem solveNodes_eq_of_hasVariable {options options' : Options} {nodes : List Node}
    (hvariable : Sequence.hasVariable nodes = false)
    (hsolve : solveNodes options nodes = .ok solution)
    (hsolve' : solveNodes options' nodes = .ok solution') : solution = solution' := by
  obtain ⟨cleaned, hcleaned, -⟩ := Traced.bind_eq_ok.1 (solveTraced_cases hsolve).1
  have hcleaned := Traced.ofExcept_eq_ok.1 hcleaned
  rw [Sequence.hasVariable, ← Sequence.mentions_cleaned hcleaned] at hvariable
  obtain ⟨hkind, value, hvalue, rfl⟩ | ⟨hkind, holds, hholds, rfl⟩ :=
    solveNodes_cases_of_hasVariable hcleaned hvariable hsolve <;>
  obtain ⟨hkind', value', hvalue', rfl⟩ | ⟨hkind', holds', hholds', rfl⟩ :=
    solveNodes_cases_of_hasVariable hcleaned hvariable hsolve'
  · rw [Except.ok.inj (hvalue.symm.trans hvalue')]
  · cases hkind.symm.trans hkind'
  · cases hkind.symm.trans hkind'
  · rw [Except.ok.inj (hholds.symm.trans hholds')]

/-- What is recorded for one sequence with two different limits.  Without variables it is the same.
For an equation or inequality that has values everywhere it is the same if no product is taken
apart, up to a quotient that is a fraction with one limit and rounded with the other.  Products are
only taken apart in equations, and for an equation every rational number that is recorded with one
limit is recorded with the other one, unless a factor that is zero is dropped there. -/
theorem solveNodes_limits {options options' : Options} {nodes : List Node}
    (hsolve : solveNodes options nodes = .ok solution)
    (hsolve' : solveNodes options' nodes = .ok solution') :
    (Sequence.hasVariable nodes = false → solution = solution') ∧
      ∀ (x : Char) (s : Sides), Sequence.cleaned nodes = .ok s.toNodes → s.IsPlain x true →
        s.hasVariable = true → (∀ r, s.DefinedAt (everywhere r)) →
          ((s.relation = .equal → KeepsProducts (solveTraced options nodes).1 ∧
              KeepsProducts (solveTraced options' nodes).1) →
            solution = solution' ∨ s.relation = .equal ∧
              (solution.IsRoundingOf x solution' ∨ solution'.IsRoundingOf x solution)) ∧
          (s.relation = .equal → NeverDrops (solveTraced options' nodes).1 →
            solution.IsWithin x (fun r => s.HoldsAt (everywhere r)) solution') := by
  refine ⟨fun hvariable => solveNodes_eq_of_hasVariable hvariable hsolve hsolve',
    fun x s hcleaned hs hvariable hdefined => ⟨fun hkeeps => ?_, fun hequal hnever => ?_⟩⟩
  · have hisolated := Sides.isolatedAs_solveNodes hcleaned hs hdefined hvariable
      (fun hequal => (hkeeps hequal).1) hsolve
    have hisolated' := Sides.isolatedAs_solveNodes hcleaned hs hdefined hvariable
      (fun hequal => (hkeeps hequal).2) hsolve'
    exact hisolated.eq_or_isRoundingOf hisolated'
  · have hsolved := Sides.solvedBy_solveNodes hcleaned hs hdefined hvariable hsolve
    have hsolved' := Sides.solvedBy_solveNodes hcleaned hs hdefined hvariable hsolve'
    exact hsolved.isWithin hsolved' hequal hnever

end

/-- In `0.5 * 6x = 10` the factor two of `6x` is cancelled, unless no factors are searched for.  The
coefficient of `1.5x = 5` is no integer, so that its quotient is rounded, and that of `3x = 10` is
not. -/
theorem solveNodes_limits_half_of_six :
    ∃ nodes solution solution', parse "0.5 * 6x = 10".toList = .ok nodes ∧
      solveNodes ⟨256, 1⟩ nodes = .ok solution ∧ solveNodes Options.standard nodes = .ok solution' ∧
      (solution.IsRoundingOf 'x' solution' ∨ solution'.IsRoundingOf 'x' solution) := by
  have hproblem : IsProblem "0.5 * 6x = 10".toList 'x'
      ⟨[Node.constant (1 / 2), .operator .multiply, .group (some 'x') (Number.ofNat 6) []], .equal,
        [Node.constant 10]⟩ :=
    { cleaned := ⟨[Node.constant (1 / 2), .operator .multiply, .group (some 'x') (Number.ofNat 6) [],
        .relation .equal, Node.constant 10], by decide +kernel, by decide +kernel⟩
      wellFormed := by decide +kernel
      unknowns := by decide +kernel
      wholePowers := by decide +kernel }
  obtain ⟨nodes, hparse, hcleaned⟩ := hproblem.cleaned
  obtain rfl : nodes = [Node.constant (1 / 2), .operator .multiply,
      .group (some 'x') (Number.ofNat 6) [], .relation .equal, Node.constant 10] :=
    Except.ok.inj (hparse.symm.trans (by decide +kernel))
  have hsolve : solveNodes ⟨256, 1⟩ [Node.constant (1 / 2), .operator .multiply,
      .group (some 'x') (Number.ofNat 6) [], .relation .equal, Node.constant 10] =
        .ok (.unknowns [('x', .single (Value.fractionOf (10 / 3)))]) := by decide +kernel
  have hsolve' : solveNodes Options.standard [Node.constant (1 / 2), .operator .multiply,
      .group (some 'x') (Number.ofNat 6) [], .relation .equal, Node.constant 10] =
        .ok (.unknowns [('x', .single (Value.ofRat (10 / 3)))]) := by decide +kernel
  refine ⟨_, _, _, hparse, hsolve, hsolve', ?_⟩
  have hsame := ((solveNodes_limits hsolve hsolve').2 'x' _ hcleaned hproblem.isPlain
    hproblem.hasVariable fun r => hproblem.definedAt (by decide +kernel) (everywhere r)).1
    fun _ => ⟨by decide +kernel, by decide +kernel⟩
  exact (hsame.resolve_left (by decide +kernel)).2

/-- With one limit the solution of `0.5 * 6x = 10` is a fraction, and with another one it is a
rounded number. -/
theorem solveNodes_half_of_six :
    ∃ nodes solution solution', parse "0.5 * 6x = 10".toList = .ok nodes ∧
      solveNodes ⟨256, 1⟩ nodes = .ok solution ∧
      solveNodes ⟨256, 10000000000⟩ nodes = .ok solution' ∧ solution ≠ solution' :=
  ⟨[Node.constant (1 / 2), .operator .multiply, .group (some 'x') (Number.ofNat 6) [],
      .relation .equal, Node.constant 10],
    .unknowns [('x', .single (Value.fractionOf (10 / 3)))],
    .unknowns [('x', .single (Value.ofRat (10 / 3)))],
    by decide +kernel, by decide +kernel, by decide +kernel, by decide +kernel⟩

end OneUnknown
