import OneUnknown.Proofs.ClosedForm
import OneUnknown.Proofs.Flat
import OneUnknown.Proofs.Nesting
/-!
# Linear equations are solved within three rounds

The first round brings the terms to their sides, the second adds them up, and the third is the
closed form.  What an equation says, `a * x + b` in relation to zero, stays the same up to a
positive factor.

* `Sides.IsLinear`: what an equation says;
* `IsLinearAnswer`: how it is to be answered;
* `closedForm?_flatSides`: the answer, where there is a closed form;
* `exists_tidied` and `exists_crossed`: what one round makes of an equation between flat sums;
* `outcome_of_closedForm`, `exists_answer_sorted`, `exists_answer_flat`: one, two and three rounds;
* `outcome_of_overflow`: a round in which the search for a common factor overflows;
* `solve_linear`: linear problems are decided completely, if no search overflows.
-/

namespace OneUnknown

/-- An equation between two flat sums. -/
def flatSides (x : Char) (left : List FlatTerm) (relation : Relation) (right : List FlatTerm) :
    Sides :=
  ⟨flatSum x left, relation, flatSum x right⟩

/-- The two sides of an equation differ by `a * x + b`. -/
def Sides.IsLinear (s : Sides) (a b : Rat) : Prop :=
  ∀ r, ∃ left right, Sequence.valueAt (everywhere r) s.left = some left ∧
    Sequence.valueAt (everywhere r) s.right = some right ∧ left - right = a * r + b

/-- How `a * x + b` in relation to zero is answered: by everything or nothing if the unknown
cancels out, by the one number or fraction in lowest terms that solves an equation, and by the range
of an ordering, which is reversed if `a` is negative. -/
inductive IsLinearAnswer (x : Char) (relation : Relation) (a b : Rat) :
    Except SolveError Solution → Prop where
  | truth (ha : a = 0) : IsLinearAnswer x relation a b (.ok (.unknowns
      [(x, .single (if relation.holds 0 (-b) then .trueForAll x else .noSolution))]))
  | number (ha : a ≠ 0) (hrelation : relation = .equal) : IsLinearAnswer x relation a b
      (.ok (.unknowns [(x, .single (.number (Number.ofRat (Rational.rounded (-b / a)))))]))
  | fraction (ha : a ≠ 0) (hrelation : relation = .equal) : IsLinearAnswer x relation a b
      (.ok (.unknowns [(x, .single (.fraction [Node.constant ((-b / a).num : Rat)]
        [Node.constant ((-b / a).den : Rat)]))]))
  | range (ha : a ≠ 0) (range : Range)
      (hrange : Range.ofRelation? (if a < 0 then relation.flipped else relation)
        (Rational.rounded (-b / a)) = some range) : IsLinearAnswer x relation a b
      (.ok (.unknowns [(x, .single (.range range))]))
  | notEqual (ha : a ≠ 0) (hrelation : relation = .notEqual) : IsLinearAnswer x relation a b
      (.error (.unsupported .notEqual))

section

variable {x : Char} {relation : Relation} {a b : Rat} {answer : Except SolveError Solution}

/-! ## Answers -/

/-- A positive factor changes nothing. -/
theorem IsLinearAnswer.of_scaled {scale : Rat} (hscale : 0 < scale)
    (h : IsLinearAnswer x relation (scale * a) (scale * b) answer) :
    IsLinearAnswer x relation a b answer := by
  have hquotient : -(scale * b) / (scale * a) = -b / a := by
    rw [← mul_neg, mul_div_mul_left _ _ hscale.ne']
  have hne (ha : scale * a ≠ 0) : a ≠ 0 := fun hzero => ha (by rw [hzero, mul_zero])
  cases h with
  | truth ha =>
    have hholds : relation.holds 0 (-(scale * b)) = relation.holds 0 (-b) :=
      relation.holds_iff_of_scaled _ _ _ _ scale hscale (by ring)
    rw [hholds]
    exact .truth ((mul_eq_zero.1 ha).resolve_left hscale.ne')
  | number ha hrelation => exact hquotient ▸ .number (hne ha) hrelation
  | fraction ha hrelation =>
    rw [hquotient]
    exact .fraction (hne ha) hrelation
  | range ha range hrange =>
    rw [hquotient] at hrange
    simp only [mul_neg_iff, hscale, hscale.not_gt, true_and, false_and, or_false] at hrange
    exact .range (hne ha) range hrange
  | notEqual ha hrelation => exact .notEqual (hne ha) hrelation

/-- An equation may be read from its right side. -/
theorem IsLinearAnswer.of_reflected (h : IsLinearAnswer x relation.flipped (-a) (-b) answer) :
    IsLinearAnswer x relation a b answer := by
  have hquotient : -(-b) / (-a) = -b / a := neg_div_neg_eq (-b) a
  have hequal (heq : relation.flipped = .equal) : relation = .equal := by
    cases relation <;> first | rfl | cases heq
  cases h with
  | truth ha =>
    have hholds : relation.flipped.holds 0 (-(-b)) = relation.holds 0 (-b) := by
      rw [Relation.holds_flipped]
      exact relation.holds_iff_of_scaled _ _ _ _ 1 one_pos (by ring)
    rw [hholds]
    exact .truth (neg_eq_zero.1 ha)
  | number ha hrelation => exact hquotient ▸ .number (neg_ne_zero.1 ha) (hequal hrelation)
  | fraction ha hrelation =>
    rw [hquotient]
    exact .fraction (neg_ne_zero.1 ha) (hequal hrelation)
  | range ha range hrange =>
    refine .range (neg_ne_zero.1 ha) range ?_
    rw [← hrange, hquotient]
    rcases lt_or_gt_of_ne (neg_ne_zero.1 ha) with hneg | hpos
    · rw [if_pos hneg, if_neg (by simpa using hneg.le)]
    · rw [if_neg hpos.not_gt, if_pos (by simpa using hpos)]
      cases relation <;> rfl
  | notEqual ha hrelation =>
    refine .notEqual (neg_ne_zero.1 ha) ?_
    cases relation <;> first | rfl | cases hrelation

/-- Rounding the end of a range. -/
theorem Range.ofRelation?_rounded {bound : Rat} {range : Range}
    (h : Range.ofRelation? relation bound = some range) :
    Range.ofRelation? relation (Rational.rounded bound) = some range.rounded := by
  cases relation <;> simp only [Range.ofRelation?, Option.some.injEq, reduceCtorEq] at h ⊢ <;>
    subst h <;> simp [Range.rounded, Number.rounded_ofRat]

/-- Isolating the unknown gives the answer. -/
theorem isLinearAnswer_isolate (x : Char) (relation : Relation) (a b : Rat) :
    IsLinearAnswer x relation a b
      ((isolate a 1 relation (-b) x).map (Solution.ofValues x)) := by
  have honly (value : Value) :
      Solution.ofValues x [value] = .unknowns [(x, .single value.recorded)] := rfl
  rw [isolate]
  split
  · rename_i ha
    rw [Except.map, honly]
    have hrecorded : (if relation.holds 0 (-b) then Value.trueForAll x else .noSolution).recorded =
        if relation.holds 0 (-b) then .trueForAll x else .noSolution := by
      split <;> rfl
    rw [hrecorded]
    exact .truth ha
  · rename_i ha
    split
    · rename_i hrelation
      exact .notEqual ha hrelation
    · rename_i hnotEqual
      extract_lets oriented quotient
      rw [if_pos rfl]
      cases hrange : Range.ofRelation? oriented quotient with
      | some range =>
        exact .range ha range.rounded (Range.ofRelation?_rounded hrange)
      | none =>
        have hequal : relation = .equal := by
          revert hrange hnotEqual
          by_cases hneg : a < 0 <;>
            cases relation <;> simp [oriented, hneg, Range.ofRelation?, Relation.flipped]
        obtain ⟨value, hvalue⟩ : ∃ value, exactQuotient a (-b) = .ok value :=
          ⟨_, exactQuotient_eq a (-b)⟩
        rw [hvalue]
        obtain rfl | ⟨-, rfl⟩ := exactQuotient_spec hvalue
        · have hrecorded := Value.recorded_ofRat (-b / a)
          rw [Value.ofRat_eq] at hrecorded ⊢
          have := IsLinearAnswer.number (x := x) (b := b) ha hequal
          rw [← hrecorded] at this
          exact this
        · exact .fraction ha hequal

/-! ## What an equation says -/

variable {left right : List FlatTerm}

theorem isLinear_flatSides (hleft : left ≠ []) (hright : right ≠ []) :
    (flatSides x left relation right).IsLinear (coefficientOf left - coefficientOf right)
      (constantOf left - constantOf right) :=
  fun r => ⟨_, _, valueAt_flatSum (everywhere r) hleft, valueAt_flatSum (everywhere r) hright,
    by simp only [everywhere]; ring⟩

/-- An equation says one thing only. -/
theorem Sides.IsLinear.unique {s : Sides} {a' b' : Rat} (h : s.IsLinear a b)
    (h' : s.IsLinear a' b') : a = a' ∧ b = b' := by
  have hsame (r : Rat) : a * r + b = a' * r + b' := by
    obtain ⟨left, right, hleft, hright, heq⟩ := h r
    obtain ⟨left', right', hleft', hright', heq'⟩ := h' r
    obtain rfl : left = left' := Option.some.inj (hleft.symm.trans hleft')
    obtain rfl : right = right' := Option.some.inj (hright.symm.trans hright')
    exact heq.symm.trans heq'
  have hzero := hsame 0
  have hone := hsame 1
  constructor <;> linarith

theorem Sides.Scaled.isLinear {scale : Rat} {s t : Sides} (h : Sides.Scaled scale s t)
    (hs : s.IsLinear a b) : t.IsLinear (scale * a) (scale * b) := by
  intro r
  obtain ⟨left, right, hleft, hright, heq⟩ := hs r
  obtain ⟨left', right', hleft', hright', heq'⟩ := h.values _ _ _ hleft hright
  exact ⟨left', right', hleft', hright', by rw [heq', heq]; ring⟩

/-! ## Closed forms -/

theorem hasUnknown_of_termAndConstant?_none {n : Number}
    (h : (flatSides x [⟨true, n⟩] relation right).termAndConstant? = none) :
    right.any FlatTerm.hasUnknown = true := by
  by_contra hnone
  have hterm : Sequence.variableTerm? (flatSum x right) = none := by
    cases hterm : Sequence.variableTerm? (flatSum x right) with
    | none => rfl
    | some g =>
      obtain ⟨m, rfl, -⟩ := variableTerm?_flatSum_eq_some hterm
      exact absurd rfl hnone
  have hvariable : Sequence.hasVariable (flatSum x right) = false := by
    rw [hasVariable_flatSum]
    simpa using hnone
  have hleft : Sequence.variableTerm? (flatSum x [⟨true, n⟩]) = some ⟨some x, n, []⟩ := rfl
  simp [Sides.termAndConstant?, flatSides, hleft, hterm, hvariable] at h

/-- The answer of an equation between flat sums, if it has a closed form. -/
theorem closedForm?_flatSides (hleft : left ≠ []) (hright : right ≠ [])
    (hlinear : (flatSides x left relation right).IsLinear a b) :
    (∃ answer, IsLinearAnswer x relation a b answer ∧
        (flatSides x left relation right).closedForm? x = answer.map some) ∨
      ((flatSides x left relation right).termAndConstant? = none ∧
        (flatSides x left relation right).closedForm? x = .ok none) := by
  obtain ⟨rfl, rfl⟩ := hlinear.unique (isLinear_flatSides hleft hright)
  have hclosed {n : Number} {oriented : Relation} {terms : List FlatTerm} (hne : terms ≠ [])
      (hterms : terms.any FlatTerm.hasUnknown = false)
      (hform : (flatSides x left relation right).termAndConstant? =
        some (⟨some x, n, []⟩, oriented, flatSum x terms)) :
      (flatSides x left relation right).closedForm? x =
        ((isolate n.value 1 oriented (constantOf terms) x).map (Solution.ofValues x)).map some := by
    simp only [Sides.closedForm?, hform, Group.wholeExponent?, List.isEmpty_nil, if_true,
      evaluate_flatSum hne hterms, bind, Except.bind, Group.coefficient]
    cases isolate n.value 1 oriented (constantOf terms) x <;> rfl
  cases hform : (flatSides x left relation right).termAndConstant? with
  | none => exact .inr ⟨rfl, by simp [Sides.closedForm?, hform]⟩
  | some form =>
    obtain ⟨term, oriented, other⟩ := form
    left
    obtain ⟨hother, ⟨hterm, rfl, rfl⟩ | ⟨hterm, rfl, rfl⟩⟩ := Sides.termAndConstant?_cases hform
    · obtain ⟨n, rfl, rfl⟩ := variableTerm?_flatSum_eq_some hterm
      have hnumbers := (hasVariable_flatSum (x := x)).symm.trans hother
      refine ⟨_, ?_, hclosed hright hnumbers hform⟩
      convert isLinearAnswer_isolate x _ n.value (-constantOf right) using 1
      · rw [coefficientOf_eq_zero hnumbers]
        simp [coefficientOf, FlatTerm.coefficient]
      · simp [constantOf, FlatTerm.constant]
      · rw [neg_neg]
    · obtain ⟨n, rfl, rfl⟩ := variableTerm?_flatSum_eq_some hterm
      have hnumbers := (hasVariable_flatSum (x := x)).symm.trans hother
      refine ⟨_, .of_reflected ?_, hclosed hleft hnumbers hform⟩
      convert isLinearAnswer_isolate x relation.flipped n.value (-constantOf left) using 1
      · rw [coefficientOf_eq_zero hnumbers]
        simp [coefficientOf, FlatTerm.coefficient]
      · simp [constantOf, FlatTerm.constant]
      · rw [neg_neg]
        rfl

/-! ## The passes of a round -/

theorem isPlain_flatSides (division : Bool) :
    (flatSides x left relation right).IsPlain x division :=
  ⟨isPlain_flatSum division, isPlain_flatSum division⟩

theorem hasVariable_flatSides :
    (flatSides x left relation right).hasVariable = (left ++ right).any FlatTerm.hasUnknown := by
  rw [Sides.hasVariable, flatSides, hasVariable_flatSum, hasVariable_flatSum, List.any_append]

/-- Dividing all numbers leaves the kinds of the terms as they are. -/
theorem exists_of_cancelled {limit : Nat} {t : Sides} (hleft : left ≠ []) (hright : right ≠ [])
    (h : (flatSides x left relation right).cancelled limit = .ok t) :
    ∃ left' right' : List FlatTerm, t = flatSides x left' relation right' ∧
      left'.map FlatTerm.hasUnknown = left.map FlatTerm.hasUnknown ∧
      right'.map FlatTerm.hasUnknown = right.map FlatTerm.hasUnknown := by
  have hkinds (divisor : Rat) (terms : List FlatTerm) :
      (terms.map (FlatTerm.dividedBy divisor)).map FlatTerm.hasUnknown =
        terms.map FlatTerm.hasUnknown := by
    rw [List.map_map]
    rfl
  rcases Sides.cancelled_cases h with rfl | ⟨common, -, -, -, rfl⟩
  · exact ⟨left, right, rfl, rfl, rfl⟩
  · rw [flatSides, Sequence.dividedBy_flatSum _ hleft, Sequence.dividedBy_flatSum _ hright]
    exact ⟨_, _, rfl, hkinds _ left, hkinds _ right⟩

theorem ne_nil_of_map_eq {terms terms' : List FlatTerm} (hne : terms ≠ [])
    (h : terms'.map FlatTerm.hasUnknown = terms.map FlatTerm.hasUnknown) : terms' ≠ [] := by
  rintro rfl
  exact hne (List.map_eq_nil_iff.1 h.symm)

/-- A common factor is cancelled and like terms are added up, between flat sums. -/
theorem exists_tidied {limit : Nat} {t : Sides} (hleft : left ≠ []) (hright : right ≠ [])
    (h : (flatSides x left relation right).cancelled limit = .ok t) :
    ∃ left' right' : List FlatTerm, left' ≠ [] ∧ right' ≠ [] ∧
      t.collected = flatSides x left' relation right' := by
  obtain ⟨left₁, right₁, rfl, hkinds, hkinds'⟩ := exists_of_cancelled hleft hright h
  obtain ⟨left₂, -, hcollected, -⟩ :=
    Sequence.exists_collected (x := x) (ne_nil_of_map_eq hleft hkinds)
  obtain ⟨right₂, -, hcollected', -⟩ :=
    Sequence.exists_collected (x := x) (ne_nil_of_map_eq hright hkinds')
  rw [flatSides, Sides.collected, hcollected, hcollected',
    Sequence.withoutZeros_flatSum, Sequence.withoutZeros_flatSum]
  exact ⟨_, _, orZero_ne_nil, orZero_ne_nil, rfl⟩

/-- If the terms are on their sides already, one is left on each. -/
theorem exists_tidied_sorted {limit : Nat} {t : Sides} (hleft : left ≠ []) (hright : right ≠ [])
    (hunknowns : ∀ t ∈ left, t.hasUnknown = true) (hnumbers : ∀ t ∈ right, t.hasUnknown = false)
    (h : (flatSides x left relation right).cancelled limit = .ok t) :
    ∃ n m, t.collected = flatSides x [⟨true, n⟩] relation [⟨false, m⟩] := by
  obtain ⟨left₁, right₁, rfl, hkinds, hkinds'⟩ := exists_of_cancelled hleft hright h
  have hkind {terms terms' : List FlatTerm} {kind : Bool}
      (hterms : ∀ t ∈ terms, t.hasUnknown = kind)
      (h : terms'.map FlatTerm.hasUnknown = terms.map FlatTerm.hasUnknown) :
      ∀ t ∈ terms', t.hasUnknown = kind := by
    intro t ht
    obtain ⟨u, hu, heq⟩ := List.mem_map.1 (h ▸ List.mem_map_of_mem ht)
    exact heq.symm.trans (hterms u hu)
  obtain ⟨n, hn⟩ := Sequence.exists_collected_of_kind (x := x) (ne_nil_of_map_eq hleft hkinds)
    (hkind hunknowns hkinds)
  obtain ⟨m, hm⟩ := Sequence.exists_collected_of_kind (x := x) (ne_nil_of_map_eq hright hkinds')
    (hkind hnumbers hkinds')
  have hkeeps : keepsVariable (flatSum x [⟨false, m⟩]) = false := by
    simp [keepsVariable]
  have hkeeps' (hzero : n.value = 0) : keepsVariable (flatSum x [⟨true, n⟩]) = false := by
    simp [keepsVariable, zeroTerm?, FlatTerm.loneTerm?_toNode, Group.coefficient, hzero]
  refine ⟨n, m, ?_⟩
  rw [flatSides, Sides.collected, hn, hm, Sequence.withoutZeros_singleton,
    Sequence.withoutZeros_singleton]
  · rfl
  · simp
  · intro _ hzero
    rw [hkeeps, hkeeps' hzero]
    rfl

/-- The term with the other sign. -/
def FlatTerm.negated (t : FlatTerm) : FlatTerm := t.withNumber t.number.negated

theorem filter_map_toNode (p : List Node → Bool) (q : FlatTerm → Bool) (terms : List FlatTerm)
    (h : ∀ t : FlatTerm, p [t.toNode x] = q t) :
    (terms.map fun t => [t.toNode x]).filter p = (terms.filter q).map fun t => [t.toNode x] := by
  rw [List.filter_map]
  exact congrArg _ (List.filter_congr fun t _ => h t)

/-- Terms go to their sides, unless the sides are the same. -/
theorem exists_crossed (relation : Relation) (hne : flatSum x left ≠ flatSum x right)
    (hleft : left ≠ []) (hright : right ≠ [])
    (hunknown : (left ++ right).any FlatTerm.hasUnknown = true) :
    ∃ left' right' : List FlatTerm, left' ≠ [] ∧ right' ≠ [] ∧
      (∀ t ∈ left', t.hasUnknown = true) ∧ (∀ t ∈ right', t.hasUnknown = false) ∧
      (flatSides x left relation right).crossed x = .moved (flatSides x left' relation right') := by
  have hkeep (terms : List FlatTerm) := filter_map_toNode (x := x) Sequence.hasVariable
    FlatTerm.hasUnknown terms fun t => FlatTerm.hasVariable_singleton
  have hdrop (terms : List FlatTerm) := filter_map_toNode (x := x)
    (not ∘ Sequence.hasVariable) (fun t => !t.hasUnknown) terms fun t => by simp
  have hnegated (terms : List FlatTerm) :
      (terms.map fun t => [t.toNode x]).map Sequence.negatedSummand =
        (terms.map FlatTerm.negated).map fun t => [t.toNode x] := by
    rw [List.map_map, List.map_map]
    rfl
  have hkind {kind : Bool} {p : FlatTerm → Bool} (hp : ∀ t, p t = true → t.hasUnknown = kind)
      (stay move : List FlatTerm) :
      ∀ t ∈ stay.filter p ++ (move.filter p).map FlatTerm.negated, t.hasUnknown = kind := by
    intro t ht
    rcases List.mem_append.1 ht with ht | ht
    · exact hp t (List.mem_filter.1 ht).2
    · obtain ⟨u, hu, rfl⟩ := List.mem_map.1 ht
      exact hp u (List.mem_filter.1 hu).2
  unfold Sides.crossed
  simp only [flatSides, if_neg hne, List.partition_eq_filter_filter, Sequence.summands_flatSum,
    hkeep, hdrop, hnegated, ← List.map_append, Sequence.join_map_toNode, List.isEmpty_map]
  split
  · rename_i hnone
    rw [Bool.and_eq_true, List.isEmpty_iff, List.isEmpty_iff, List.filter_eq_nil_iff,
      List.filter_eq_nil_iff] at hnone
    exact ⟨left, right, hleft, hright, by simpa using hnone.1, by simpa using hnone.2, rfl⟩
  · refine ⟨_, _, orZero_ne_nil, orZero_ne_nil, ?_, ?_, rfl⟩
    · -- There is a term with the unknown, so no zero is put on the left.
      rw [orZero_of_ne_nil]
      · exact hkind (fun _ h => h) left right
      · intro hnil
        obtain ⟨t, ht, hkind⟩ := List.any_eq_true.1 hunknown
        rw [List.append_eq_nil_iff, List.map_eq_nil_iff, List.filter_eq_nil_iff,
          List.filter_eq_nil_iff] at hnil
        rcases List.mem_append.1 ht with ht | ht
        · exact hnil.1 t ht hkind
        · exact hnil.2 t ht hkind
    · rw [orZero]
      split
      · simp [FlatTerm.zero]
      · exact hkind (fun _ h => by simpa using h) right left

/-! ## Rounds -/

theorem mem_toNodes_flatSides {node : Node}
    (h : node ∈ (flatSides x left relation right).toNodes) :
    node = .operator .add ∨ node = .relation relation ∨ ∃ t : FlatTerm, node = t.toNode x := by
  have hside {terms : List FlatTerm} (h : node ∈ flatSum x terms) :
      node = .operator .add ∨ node = .relation relation ∨ ∃ t : FlatTerm, node = t.toNode x :=
    (mem_flatSum h).imp_right fun hterm => .inr (hterm.imp fun _ => And.right)
  rcases List.mem_append.1 h with h | h
  · exact hside h
  · rcases List.mem_cons.1 h with rfl | h
    · exact .inr (.inl rfl)
    · exact hside h

/-- All terms with the unknown share one key. -/
theorem variableKeys_eq {nodes : List Node} (h : ∀ node ∈ nodes,
      node = .operator .add ∨ node = .relation relation ∨ ∃ t : FlatTerm, node = t.toNode x)
    (seen : List TermKey) :
    Sequence.variableKeys seen nodes =
      if Sequence.hasVariable nodes ∧ (⟨some x, []⟩ : TermKey) ∉ seen then seen ++ [⟨some x, []⟩]
      else seen := by
  induction nodes generalizing seen with
  | nil => rfl
  | cons node rest ih =>
    rw [Sequence.variableKeys, ih fun n hn => h n (.tail _ hn), Sequence.hasVariable_cons]
    rcases h node (.head _) with rfl | rfl | ⟨t, rfl⟩
    · rfl
    · rfl
    · rw [FlatTerm.hasVariable_toNode]
      cases hkind : t.hasUnknown with
      | false => simp [FlatTerm.toNode, hkind, Node.variableKeys, Sequence.variableKeys]
      | true =>
        by_cases hmem : (⟨some x, []⟩ : TermKey) ∈ seen <;>
          simp [FlatTerm.toNode, hkind, Node.variableKeys, Sequence.variableKeys, hmem]

theorem kind_flatSides (hunknown : (left ++ right).any FlatTerm.hasUnknown = true) :
    ProblemKind.of (flatSides x left relation right).toNodes = .ok (.equation x) := by
  have hvariable : (flatSides x left relation right).hasVariable = true :=
    hasVariable_flatSides.trans hunknown
  have hmultiplied : Sequence.multiplied (flatSides x left relation right).toNodes =
      .ok (flatSides x left relation right).toNodes := by
    refine Sequence.multiplied_of_forall fun node hnode => ?_
    rcases mem_toNodes_flatSides hnode with rfl | rfl | ⟨t, rfl⟩ <;> simp [FlatTerm.toNode]
  have hkeys : Sequence.variableKeys [] (flatSides x left relation right).toNodes =
      [⟨some x, []⟩] := by
    rw [variableKeys_eq (fun _ => mem_toNodes_flatSides), Sides.hasVariable_toNodes, hvariable]
    rfl
  rw [Sides.kind_toNodes (isPlain_flatSides false) hvariable, hmultiplied]
  simp only [bind, Except.bind, hkeys]
  rfl

theorem outcome_step_flatSides (solve : List Node → Traced Solution) (options : Options) :
    (Sequence.step solve options x (flatSides x left relation right).toNodes).outcome =
      ((flatSides x left relation right).step solve options x).outcome := by
  have hfractions : Sequence.withFractions (flatSides x left relation right).toNodes =
      .ok (flatSides x left relation right).toNodes := by
    refine Sequence.withFractions_of_forall fun node hnode => ?_
    rcases mem_toNodes_flatSides hnode with rfl | rfl | ⟨t, rfl⟩ <;>
      simp [FlatTerm.toNode, Node.withFractions]
  have hplain : (flatSides x left relation right).IsPlain x false := isPlain_flatSides false
  exact Sequence.outcome_step_of_sides hfractions (Sides.hasOneRelation_of_isPlain hplain)

/-- A round is a step, and the rounds after it. -/
theorem outcome_round (solve : List Node → Traced Solution) (options : Options) (rounds : Nat)
    (hunknown : (left ++ right).any FlatTerm.hasUnknown = true) :
    (rewriteUntilSolved solve options (rounds + 1)
        (flatSides x left relation right).toNodes).outcome =
      ((flatSides x left relation right).step solve options x).outcome.bind fun
        | .solved solution => .ok solution
        | .rewritten next => (rewriteUntilSolved solve options rounds next).outcome := by
  rw [rewriteUntilSolved,
    Traced.outcome_bind_of_ok (Traced.ofExcept_eq_ok.2 (kind_flatSides hunknown))]
  dsimp only
  rw [Traced.outcome_bind, outcome_step_flatSides]
  refine congrArg _ (funext fun step => ?_)
  cases step <;> rfl

/-- A step that ends with a closed form. -/
theorem outcome_step_of_closedForm {s : Sides} (solve : List Node → Traced Solution)
    (options : Options) (h : s.closedForm? x = answer.map some) :
    (s.step solve options x).outcome = (answer.mapError .failed).map .solved := by
  rw [Sides.step, h]
  cases answer <;> rfl

theorem isFactorable_flatSum (terms : List FlatTerm) : isFactorable (flatSum x terms) = false := by
  have hparens : Positions.places Node.isParen (flatSum x terms) = [] := by
    refine List.filterMap_eq_nil_iff.2 ?_
    rintro ⟨node, place⟩ hmem
    have hnode := List.fst_mem_of_mem_zipIdx hmem
    rcases mem_flatSum hnode with rfl | ⟨t, -, rfl⟩ <;> rfl
  simp [isFactorable, Positions.ofNodes, hparens]

theorem exists_zeroProduct? (x : Char) (relation : Relation) (hleft : left ≠ [])
    (hright : right ≠ []) :
    ∃ product, (flatSides x left relation right).zeroProduct? = .ok product ∧
      ∀ side, product = some side → isFactorable side = false := by
  have hzero {terms : List FlatTerm} (hne : terms ≠ []) :
      ∃ zero, isZeroSide (flatSum x terms) = .ok zero := by
    rw [isZeroSide, hasVariable_flatSum]
    split
    · exact ⟨false, rfl⟩
    · rename_i hnumbers
      rw [evaluate_flatSum hne (by simpa using hnumbers)]
      exact ⟨_, rfl⟩
  obtain ⟨leftZero, hleftZero⟩ := hzero hleft
  obtain ⟨rightZero, hrightZero⟩ := hzero hright
  have hside (terms : List FlatTerm) :
      ∀ side, some (flatSum x terms) = some side → isFactorable side = false := by
    rintro side heq
    rw [← Option.some.inj heq]
    exact isFactorable_flatSum terms
  rw [Sides.zeroProduct?]
  split
  · exact ⟨none, rfl, by simp⟩
  · simp only [flatSides, hleftZero, hrightZero, bind, Except.bind]
    split
    · exact ⟨_, rfl, hside left⟩
    · split
      · exact ⟨_, rfl, hside right⟩
      · exact ⟨none, rfl, by simp⟩

/-- A step that ends with the passes. -/
theorem outcome_step_of_none (solve : List Node → Traced Solution) (options : Options)
    (hleft : left ≠ []) (hright : right ≠ [])
    (h : (flatSides x left relation right).closedForm? x = .ok none) :
    ((flatSides x left relation right).step solve options x).outcome =
      ((flatSides x left relation right).rewritten options x).outcome := by
  obtain ⟨product, hproduct, hfactorable⟩ :=
    exists_zeroProduct? x relation hleft hright
  exact Sides.outcome_step_of_none h hproduct hfactorable

theorem withoutFraction_flatSides (limit : Nat) :
    (flatSides x left relation right).withoutFraction limit =
      .ok (flatSides x left relation right) := by
  have hnone (terms : List FlatTerm) :
      FractionSpot.inSummands? (Sequence.summands (flatSum x terms)) = none := by
    refine FractionSpot.inSummands?_of_forall fun part hpart node hnode => ?_
    rw [Sequence.summands_flatSum] at hpart
    obtain ⟨t, -, rfl⟩ := List.mem_map.1 hpart
    rw [List.mem_singleton.1 hnode]
    rfl
  simp only [Sides.withoutFraction, flatSides, hnone]

theorem multiplied_flatSides (x : Char) (left : List FlatTerm) (relation : Relation)
    (right : List FlatTerm) :
    (flatSides x left relation right).mapM Sequence.multiplied =
      .ok (flatSides x left relation right) := by
  have hside (terms : List FlatTerm) :
      Sequence.multiplied (flatSum x terms) = .ok (flatSum x terms) := by
    refine Sequence.multiplied_of_forall fun node hnode => ?_
    rcases mem_flatSum hnode with rfl | ⟨t, -, rfl⟩ <;> simp [FlatTerm.toNode]
  simp only [Sides.mapM, flatSides, hside, bind, Except.bind]
  rfl

/-- Between flat sums there is nothing to do for most passes. -/
theorem outcome_rewritten_flatSides {options : Options} {t : Sides} (hleft : left ≠ [])
    (hright : right ≠ [])
    (h : (flatSides x left relation right).cancelled options.factorLimit = .ok t) :
    ((flatSides x left relation right).rewritten options x).outcome =
      match t.collected.crossed x with
      | .settled value => .ok (.solved (Solution.only x value))
      | .moved next =>
        if next = flatSides x left relation right then
          (flatSides x left relation right).openedUp.outcome
        else .ok (.rewritten next.toNodes) := by
  obtain ⟨left', right', rfl, -, -⟩ := exists_of_cancelled hleft hright h
  have htidied : ((flatSides x left relation right).tidied options x).outcome =
      .ok ((flatSides x left' relation right').collected.crossed x) := by
    rw [Sides.tidied, Traced.outcome_bind_of_ok (withoutFraction_flatSides _),
      Traced.outcome_bind_of_ok (Traced.outcome_stage _ _), Traced.outcome_bind_of_ok h,
      Traced.outcome_bind_of_ok (Traced.outcome_stage _ _),
      Traced.outcome_bind_of_ok
        (Traced.ofExcept_eq_ok.2 (multiplied_flatSides x left' relation right')),
      Traced.outcome_bind_of_ok (Traced.outcome_stage _ _),
      Traced.outcome_bind_of_ok (Traced.outcome_stage _ _)]
    rfl
  rw [Sides.rewritten, Traced.outcome_bind_of_ok htidied]
  cases (flatSides x left' relation right').collected.crossed x with
  | settled value => rfl
  | moved next =>
    dsimp only
    rw [Traced.outcome_bind_of_ok (Traced.outcome_stage _ _)]
    split <;> rfl

/-- The search for a common factor may overflow, and then there is no step. -/
theorem outcome_rewritten_of_overflow {options : Options} {halt : Halt}
    (h : (flatSides x left relation right).cancelled options.factorLimit = .error halt) :
    ((flatSides x left relation right).rewritten options x).outcome = .error .overflow := by
  obtain rfl := Sides.eq_overflow_of_cancelled h
  have htidied : ((flatSides x left relation right).tidied options x).outcome =
      .error .overflow := by
    rw [Sides.tidied, Traced.outcome_bind_of_ok (withoutFraction_flatSides _),
      Traced.outcome_bind_of_ok (Traced.outcome_stage _ _)]
    exact Traced.outcome_bind_of_error h
  exact Traced.outcome_bind_of_error htidied

/-- Up to the crossing of the sides, a round multiplies the difference of the sides by a positive
number and keeps the unknown. -/
theorem scaled_tidied {limit : Nat} {t : Sides}
    (hunknown : (left ++ right).any FlatTerm.hasUnknown = true)
    (h : (flatSides x left relation right).cancelled limit = .ok t) :
    (∃ scale, Sides.Scaled scale (flatSides x left relation right) t.collected) ∧
      t.collected.hasVariable = true := by
  have hplain : (flatSides x left relation right).IsPlain x false := isPlain_flatSides false
  obtain ⟨-, scale, hscaled⟩ := Sides.scaled_cancelled h hplain
  exact ⟨⟨_, hscaled.trans (Sides.scaled_collected _)⟩,
    Sides.hasVariable_collected (Sides.hasVariable_of_mentions
      (fun _ => Sides.mem_mentions_cancelled h) (hasVariable_flatSides.trans hunknown))⟩

/-! ## Runs -/

variable {solve : List Node → Traced Solution} {options : Options}

/-- One round, where there is a closed form. -/
theorem outcome_of_closedForm (rounds : Nat)
    (hunknown : (left ++ right).any FlatTerm.hasUnknown = true)
    (h : (flatSides x left relation right).closedForm? x = answer.map some) :
    (rewriteUntilSolved solve options (rounds + 1)
      (flatSides x left relation right).toNodes).outcome = answer.mapError .failed := by
  rw [outcome_round _ _ _ hunknown, outcome_step_of_closedForm _ _ h]
  cases answer <;> rfl

theorem crossed_isolated (n m : Number) :
    (flatSides x [⟨true, n⟩] relation [⟨false, m⟩]).crossed x =
      .moved (flatSides x [⟨true, n⟩] relation [⟨false, m⟩]) := by
  have hne : flatSum x [⟨true, n⟩] ≠ flatSum x [⟨false, m⟩] := by
    simp [flatSum, FlatTerm.toNode]
  unfold Sides.crossed
  simp [flatSides, hne]

theorem crossed_of_same (h : flatSum x left = flatSum x right) :
    (flatSides x left relation right).crossed x =
      .settled (if relation.holds 0 0 then .trueForAll x else .noSolution) :=
  if_pos h

/-- Where the sides are the same, everything or nothing solves the equation. -/
theorem isLinearAnswer_of_same (h : flatSum x left = flatSum x right)
    (hlinear : (flatSides x left relation right).IsLinear a b) :
    IsLinearAnswer x relation a b
      (.ok (Solution.only x (if relation.holds 0 0 then .trueForAll x else .noSolution))) := by
  have hzero : (flatSides x left relation right).IsLinear 0 0 := by
    intro r
    obtain ⟨l, r', hl, hr, -⟩ := hlinear r
    obtain rfl : l = r' := Option.some.inj (hl.symm.trans ((congrArg _ h).trans hr))
    exact ⟨l, l, hl, hr, by ring⟩
  obtain ⟨rfl, rfl⟩ := hlinear.unique hzero
  have hanswer : IsLinearAnswer x relation 0 0 _ := .truth rfl
  rw [neg_zero] at hanswer
  convert hanswer using 5
  split <;> rfl

/-- One round without a closed form, whose search overflows. -/
theorem outcome_of_overflow (rounds : Nat) (hleft : left ≠ []) (hright : right ≠ [])
    (hunknown : (left ++ right).any FlatTerm.hasUnknown = true)
    (hclosed : (flatSides x left relation right).closedForm? x = .ok none) {halt : Halt}
    (h : (flatSides x left relation right).cancelled options.factorLimit = .error halt) :
    (rewriteUntilSolved solve options (rounds + 1)
      (flatSides x left relation right).toNodes).outcome = .error .overflow := by
  rw [outcome_round _ _ _ hunknown, outcome_step_of_none _ _ hleft hright hclosed,
    outcome_rewritten_of_overflow h]
  rfl

/-- One round without a closed form, whose search does not overflow. -/
theorem exists_cancelled_of_round (rounds : Nat) (hleft : left ≠ []) (hright : right ≠ [])
    (hunknown : (left ++ right).any FlatTerm.hasUnknown = true)
    (hclosed : (flatSides x left relation right).closedForm? x = .ok none)
    (hends : (rewriteUntilSolved solve options (rounds + 1)
      (flatSides x left relation right).toNodes).outcome ≠ .error .overflow) :
    ∃ t, (flatSides x left relation right).cancelled options.factorLimit = .ok t := by
  cases hcancelled : (flatSides x left relation right).cancelled options.factorLimit with
  | ok t => exact ⟨t, rfl⟩
  | error halt =>
    exact absurd (outcome_of_overflow rounds hleft hright hunknown hclosed hcancelled) hends

/-- Two rounds, where the terms are on their sides: they are added up, and then there is a closed
form. -/
theorem exists_answer_sorted (rounds : Nat) (hleft : left ≠ []) (hright : right ≠ [])
    (hunknowns : ∀ t ∈ left, t.hasUnknown = true) (hnumbers : ∀ t ∈ right, t.hasUnknown = false)
    (hlinear : (flatSides x left relation right).IsLinear a b)
    (hends : (rewriteUntilSolved solve options (rounds + 2)
      (flatSides x left relation right).toNodes).outcome ≠ .error .overflow) :
    ∃ answer, IsLinearAnswer x relation a b answer ∧
      (rewriteUntilSolved solve options (rounds + 2)
        (flatSides x left relation right).toNodes).outcome = answer.mapError .failed := by
  have hunknown : (left ++ right).any FlatTerm.hasUnknown = true := by
    obtain ⟨t, ht⟩ := List.exists_mem_of_ne_nil left hleft
    exact List.any_eq_true.2 ⟨t, List.mem_append_left _ ht, hunknowns t ht⟩
  rcases closedForm?_flatSides hleft hright hlinear with
    ⟨answer, hanswer, hclosed⟩ | ⟨hform, hclosed⟩
  · exact ⟨answer, hanswer, outcome_of_closedForm _ hunknown hclosed⟩
  · obtain ⟨t, hcancelled⟩ :=
      exists_cancelled_of_round (rounds + 1) hleft hright hunknown hclosed hends
    obtain ⟨n, m, htidied⟩ := exists_tidied_sorted hleft hright hunknowns hnumbers hcancelled
    obtain ⟨⟨scale, hscaled⟩, -⟩ := scaled_tidied hunknown hcancelled
    rw [htidied] at hscaled
    have hisolated : (flatSides x [⟨true, n⟩] relation [⟨false, m⟩]).termAndConstant? ≠ none :=
      fun hnone => by cases hasUnknown_of_termAndConstant?_none hnone
    -- Otherwise there would have been a closed form before.
    have hchanged : flatSides x [⟨true, n⟩] relation [⟨false, m⟩] ≠
        flatSides x left relation right := fun heq => hisolated (heq ▸ hform)
    obtain ⟨answer, hanswer, hclosed'⟩ | ⟨hnone, -⟩ :=
      closedForm?_flatSides (by simp) (by simp) (hscaled.isLinear hlinear)
    · refine ⟨answer, hanswer.of_scaled hscaled.pos, ?_⟩
      rw [outcome_round _ _ _ hunknown, outcome_step_of_none _ _ hleft hright hclosed,
        outcome_rewritten_flatSides hleft hright hcancelled, htidied, crossed_isolated]
      dsimp only
      rw [if_neg hchanged]
      exact outcome_of_closedForm rounds rfl hclosed'
    · exact absurd hnone hisolated

/-- Three rounds, for any flat sums: the terms go to their sides first. -/
theorem exists_answer_flat (rounds : Nat) (hleft : left ≠ []) (hright : right ≠ [])
    (hunknown : (left ++ right).any FlatTerm.hasUnknown = true)
    (hlinear : (flatSides x left relation right).IsLinear a b)
    (hends : (rewriteUntilSolved solve options (rounds + 3)
      (flatSides x left relation right).toNodes).outcome ≠ .error .overflow) :
    ∃ answer, IsLinearAnswer x relation a b answer ∧
      (rewriteUntilSolved solve options (rounds + 3)
        (flatSides x left relation right).toNodes).outcome = answer.mapError .failed := by
  rcases closedForm?_flatSides hleft hright hlinear with
    ⟨answer, hanswer, hclosed⟩ | ⟨-, hclosed⟩
  · exact ⟨answer, hanswer, outcome_of_closedForm _ hunknown hclosed⟩
  · obtain ⟨t, hcancelled⟩ :=
      exists_cancelled_of_round (rounds + 2) hleft hright hunknown hclosed hends
    obtain ⟨left', right', hleft', hright', htidied⟩ := exists_tidied hleft hright hcancelled
    obtain ⟨⟨scale, hscaled⟩, hvariable⟩ := scaled_tidied hunknown hcancelled
    rw [htidied] at hscaled hvariable
    have hlinear' := hscaled.isLinear hlinear
    have hround : (rewriteUntilSolved solve options (rounds + 3)
        (flatSides x left relation right).toNodes).outcome = _ :=
      outcome_round solve options (rounds + 2) hunknown
    rw [outcome_step_of_none _ _ hleft hright hclosed,
      outcome_rewritten_flatSides hleft hright hcancelled, htidied] at hround
    by_cases hsame : flatSum x left' = flatSum x right'
    · rw [crossed_of_same hsame] at hround
      exact ⟨_, (isLinearAnswer_of_same hsame hlinear').of_scaled hscaled.pos, hround⟩
    · obtain ⟨left'', right'', hleft'', hright'', hunknowns, hnumbers, hcrossed⟩ :=
        exists_crossed relation hsame hleft' hright'
          (hasVariable_flatSides.symm.trans hvariable)
      have hscaled' := (Sides.scaled_crossed hcrossed (isPlain_flatSides false)).2
      have hanswer {rounds : Nat} (hends : (rewriteUntilSolved solve options (rounds + 2)
          (flatSides x left'' relation right'').toNodes).outcome ≠ .error .overflow) :=
        exists_answer_sorted rounds hleft'' hright'' hunknowns hnumbers
          (hscaled'.isLinear hlinear') hends
      by_cases hmoved : flatSides x left'' relation right'' = flatSides x left relation right
      · -- The terms were on their sides already.
        obtain ⟨answer, hanswer, houtcome⟩ := @hanswer (rounds + 1) (hmoved ▸ hends)
        rw [hmoved] at houtcome
        exact ⟨answer, (hanswer.of_scaled hscaled'.pos).of_scaled hscaled.pos, houtcome⟩
      · rw [hcrossed] at hround
        dsimp only at hround
        rw [if_neg hmoved] at hround
        obtain ⟨answer, hanswer, houtcome⟩ := hanswer fun heq => hends (hround.trans heq)
        exact ⟨answer, (hanswer.of_scaled hscaled'.pos).of_scaled hscaled.pos,
          hround.trans houtcome⟩

/-- Solving a sequence that is cleaned to an equation between flat sums. -/
theorem outcome_solveWithin_flat (levels : Nat) (options : Options) {nodes : List Node}
    (hcleaned : Sequence.cleaned nodes =
      .ok (flatSum x left ++ .relation relation :: flatSum x right)) :
    (solveWithin (levels + 1) options nodes).outcome =
      (rewriteUntilSolved (solveWithin levels options) options options.maxSteps
        (flatSides x left relation right).toNodes).outcome := by
  rw [solveWithin, Traced.outcome_bind_of_ok (Traced.ofExcept_eq_ok.2 hcleaned),
    Traced.outcome_bind_of_ok (Traced.outcome_stage _ _)]
  rfl

end

/-- Linear problems are decided completely.  Whatever terms the two sides of a problem add up, with
`a * x + b` as the difference of the sides, it is answered as `a * x + b` in relation to zero is to
be answered, and three steps are enough.  Only with a limit beyond the end of the search in machine
words can it come to no answer, because the search for a common factor overflows. -/
theorem solve_linear {x : Char} {left right : List FlatTerm} {relation : Relation}
    {nodes : List Node} {options : Options} (hleft : left ≠ []) (hright : right ≠ [])
    (hunknown : ∃ t ∈ left ++ right, t.hasUnknown = true)
    (hcleaned : Sequence.cleaned nodes =
      .ok (flatSum x left ++ .relation relation :: flatSum x right))
    (hsteps : 3 ≤ options.maxSteps) :
    IsLinearAnswer x relation (coefficientOf left - coefficientOf right)
        (constantOf left - constantOf right) (solveNodes options nodes) ∨
      (Rational.wordSearchEnd < options.factorLimit ∧
        (solveWithin (nestingBound nodes) options nodes).outcome = .error .overflow) := by
  obtain ⟨rounds, hrounds⟩ := Nat.exists_eq_add_of_le' hsteps
  have hlinear : (flatSides x left relation right).IsLinear
      (coefficientOf left - coefficientOf right) (constantOf left - constantOf right) :=
    isLinear_flatSides hleft hright
  have hwithin : (solveWithin (nestingBound nodes) options nodes).outcome = _ :=
    outcome_solveWithin_flat (2 * Sequence.height nodes + 2) options hcleaned
  rw [hrounds] at hwithin
  by_cases hends : (solveWithin (nestingBound nodes) options nodes).outcome = .error .overflow
  · exact .inr ⟨lt_of_solveWithin_eq_overflow hends, hends⟩
  · obtain ⟨answer, hanswer, houtcome⟩ := exists_answer_flat rounds hleft hright
      (List.any_eq_true.2 hunknown) hlinear (hwithin ▸ hends)
    have hsolved : solveNodes options nodes = answer := by
      rw [solveNodes, solveTraced, hwithin, houtcome]
      cases answer <;> rfl
    exact .inl (hsolved ▸ hanswer)

/-- In `2x - 3 ≥ 5x` the coefficient that is left is negative, so the range is reversed. -/
theorem solve_linear_reversed :
    IsLinearAnswer 'x' .greaterOrEqual
      (coefficientOf [⟨true, Number.ofNat 2⟩, ⟨false, Number.ofRat (-3)⟩] -
        coefficientOf [⟨true, Number.ofNat 5⟩])
      (constantOf [⟨true, Number.ofNat 2⟩, ⟨false, Number.ofRat (-3)⟩] -
        constantOf [⟨true, Number.ofNat 5⟩])
      (solveNodes ⟨3, 100⟩
        [.group (some 'x') (Number.ofNat 2) [], .operator .subtract, Node.constant 3,
          .relation .greaterOrEqual, .group (some 'x') (Number.ofNat 5) []]) :=
  (solve_linear (by decide) (by decide) (by decide) (by decide +kernel) (by decide)).resolve_right
    fun h => absurd h.1 (by decide)

/-- Coefficients that are too large for the search in machine words: with the largest limit there is
no answer to `18446744073709551614x + 18446744073709551614 = 18446744073709551614`. -/
theorem solve_linear_overflow :
    ∃ n nodes, n = Number.ofNat (2 ^ 64 - 2) ∧
      Sequence.cleaned nodes = .ok (flatSum 'x' [⟨true, n⟩, ⟨false, n⟩] ++
        .relation .equal :: flatSum 'x' [⟨false, n⟩]) ∧
      (solveWithin (nestingBound nodes) ⟨256, 2 ^ 64 - 1⟩ nodes).outcome = .error .overflow ∧
      ¬IsLinearAnswer 'x' .equal
        (coefficientOf [⟨true, n⟩, ⟨false, n⟩] - coefficientOf [⟨false, n⟩])
        (constantOf [⟨true, n⟩, ⟨false, n⟩] - constantOf [⟨false, n⟩])
        (solveNodes ⟨256, 2 ^ 64 - 1⟩ nodes) := by
  obtain ⟨n, hn⟩ : ∃ n, n = Number.ofNat (2 ^ 64 - 2) := ⟨_, rfl⟩
  obtain ⟨nodes, hnodes⟩ : ∃ nodes, nodes = flatSum 'x' [⟨true, n⟩, ⟨false, n⟩] ++
    .relation .equal :: flatSum 'x' [⟨false, n⟩] := ⟨_, rfl⟩
  have hcleaned : Sequence.cleaned nodes = .ok nodes := by
    rw [hnodes, hn]
    decide +kernel
  have hclosed : (flatSides 'x' [⟨true, n⟩, ⟨false, n⟩] .equal [⟨false, n⟩]).closedForm? 'x' =
      .ok none := by
    rw [hn]
    decide +kernel
  have hvalue : n.value = ((2 ^ 64 - 2 : Nat) : Rat) := by
    rw [hn]
    decide +kernel
  have hsearch : Rational.wordDivisors n.value (2 ^ 64 - 1) = none := by
    rw [hvalue]
    exact Rational.wordDivisors_natCast_eq_none (by decide) (by decide)
  have hnode : (FlatTerm.toNode 'x' ⟨true, n⟩).divisors (2 ^ 64 - 1) = none := by
    rw [FlatTerm.toNode, Node.divisors, if_pos (by rfl)]
    exact hsearch
  have hcancelled : (flatSides 'x' [⟨true, n⟩, ⟨false, n⟩] .equal [⟨false, n⟩]).cancelled
      (2 ^ 64 - 1) = .error .overflow :=
    Sides.cancelled_eq_overflow (Sequence.divisors_eq_none (.head _) hnode)
  have houtcome : (solveWithin (nestingBound nodes) ⟨256, 2 ^ 64 - 1⟩ nodes).outcome =
      .error .overflow := by
    rw [nestingBound, outcome_solveWithin_flat _ _ (hcleaned.trans (congrArg _ hnodes))]
    exact outcome_of_overflow 255 (by simp) (by simp) rfl hclosed hcancelled
  refine ⟨n, nodes, hn, hcleaned.trans (congrArg _ hnodes), houtcome, fun h => ?_⟩
  rw [solveNodes, solveTraced, houtcome] at h
  cases h

end OneUnknown
